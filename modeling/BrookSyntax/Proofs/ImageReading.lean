import BrookSyntax.Proofs.Storable
import BrookSyntax.Tree.Reading

namespace BrookSyntax

namespace Json

/-- All readings of a value. -/
def reading (v : Json) : Reading := v.fold Reading.ofLayer

variable {α : Type} {members : List (Text × Json)} {key k : Text}

@[simp] theorem lookup_other (h : k ≠ key) (a : α) (rest : List (Text × α)) :
    ((k, a) :: rest).lookup key = rest.lookup key := by
  rw [lookup_cons, if_neg h]

@[simp] theorem get_foldMembers (members : List (Text × Json)) (key : Text)
    (read : Reading → Option α) :
    Reading.get (foldMembers Reading.ofLayer members) key read =
      (members.lookup key).bind fun v => read v.reading := by
  rw [Reading.get, lookup_foldMembers]
  cases members.lookup key <;> rfl

-- The readings of an object unfold to the readings of its members and no further: evaluating them
-- would work out the numbers.
theorem position?_object (members : List (Text × Json)) : (object members).reading.position? =
    Reading.positionOf (foldMembers Reading.ofLayer members) := rfl

theorem span?_object (members : List (Text × Json)) : (object members).reading.span? =
    Reading.spanOf (foldMembers Reading.ofLayer members) := rfl

theorem name?_object (members : List (Text × Json)) : (object members).reading.name? =
    Reading.nameOf (foldMembers Reading.ofLayer members) := rfl

theorem expr?_object (members : List (Text × Json)) : (object members).reading.expr? =
    Reading.exprOf (foldMembers Reading.ofLayer members) := rfl

theorem block?_object (members : List (Text × Json)) : (object members).reading.block? =
    Reading.blockOf (foldMembers Reading.ofLayer members) := rfl

theorem stmt?_object (members : List (Text × Json)) : (object members).reading.stmt? =
    Reading.stmtOf (foldMembers Reading.ofLayer members) := rfl

theorem program?_object (members : List (Text × Json)) : (object members).reading.program? =
    Reading.programOf (foldMembers Reading.ofLayer members) := rfl

theorem position?_of {v w u : Json} {line col offset : Nat} (hv : v.reading.nat? = some line)
    (hw : w.reading.nat? = some col) (hu : u.reading.nat? = some offset) :
    (object [("line", v), ("col", w), ("offset", u)]).reading.position? =
      some ⟨line, col, offset⟩ := by
  rw [position?_object, Reading.positionOf]
  simp (disch := decide) only [get_foldMembers, List.lookup_cons_self, lookup_other,
    Option.bind_some, Option.bind_eq_bind, hv, hw, hu]
  rfl

theorem span?_of {v w : Json} {p q : Position} (hv : v.reading.position? = some p)
    (hw : w.reading.position? = some q) :
    (object [("start", v), ("end", w)]).reading.span? = some ⟨p, q⟩ := by
  rw [span?_object, Reading.spanOf]
  simp (disch := decide) only [get_foldMembers, List.lookup_cons_self, lookup_other,
    Option.bind_some, Option.bind_eq_bind, hv, hw]
  rfl

end Json

open Json

theorem nat?_reading {x : Binary64} {n : Nat} (h : x.toInt? = some (n : Int)) :
    (Json.number x).reading.nat? = some n := by
  have hread : (Json.number x).reading.nat? = x.toInt?.bind Int.toNat? := rfl
  rw [hread, h]
  rfl

theorem Position.Storable.reading {p : Position} (h : p.Storable) :
    p.toJson.reading.position? = some p :=
  position?_of (nat?_reading h.line) (nat?_reading h.col) (nat?_reading h.offset)

theorem Span.Storable.reading {a : Span} (h : a.Storable) : a.toJson.reading.span? = some a :=
  span?_of h.1.reading h.2.reading

@[simp] theorem text?_reading (t : Text) : (Json.text t).reading.text? = some t := rfl

@[simp] theorem bool?_reading (b : Bool) : (Json.bool b).reading.bool? = some b := rfl

@[simp] theorem number?_reading (x : Binary64) : (Json.number x).reading.number? = some x := rfl

@[simp] theorem unaryOp?_reading (op : UnaryOp) :
    Reading.unaryOp? (Json.text op.symbol).reading = some op := by
  cases op <;> decide

@[simp] theorem binaryOp?_reading (op : BinaryOp) :
    Reading.binaryOp? (Json.text op.symbol).reading = some op := by
  cases op <;> decide

@[simp] theorem firstOf_none (rest : List (Option α)) :
    Reading.firstOf (none :: rest) = Reading.firstOf rest := rfl

@[simp] theorem firstOf_some (a : α) (rest : List (Option α)) :
    Reading.firstOf (some a :: rest) = some a := rfl

section Nodes

variable {kind kind' : Text} {a : Span}

/-- Only the kind of an object that is a node matters to a reading as a node of another kind. -/
@[simp] theorem nodeSpan_other (h : kind' ≠ kind) :
    Reading.nodeSpan kind
      (foldMembers Reading.ofLayer ((Text.ofString "kind", .text kind') :: members)) = none := by
  rw [Reading.nodeSpan, get_foldMembers, List.lookup_cons_self, Option.bind_some, text?_reading,
    Option.bind_eq_bind, Option.bind_some, if_neg h]

theorem nodeSpan_self {w : Json} (hw : w.reading.span? = some a)
    (h : members.lookup ("span" : Text) = some w) :
    Reading.nodeSpan kind
      (foldMembers Reading.ofLayer ((Text.ofString "kind", .text kind) :: members)) = some a := by
  rw [Reading.nodeSpan, get_foldMembers, List.lookup_cons_self, Option.bind_some, text?_reading,
    Option.bind_eq_bind, Option.bind_some, if_pos rfl, get_foldMembers,
    lookup_other (by decide), h, Option.bind_some, hw]

end Nodes

section Expressions

variable {e e' : Expr} {v v' w : Json} {a b : Span} {name : Name} {op : UnaryOp}

theorem name?_of {t : Text} (hw : w.reading.span? = some a) :
    (object [("kind", .text "Name"), ("name", .text t), ("span", w)]).reading.name? =
      some ⟨t, a⟩ := by
  rw [name?_object, Reading.nameOf, nodeSpan_self hw rfl]
  simp (disch := decide)

theorem expr?_number (x : Binary64) (hw : w.reading.span? = some a) :
    (object [("kind", .text "Number"), ("value", .number x), ("span", w)]).reading.expr? =
      some (.number x a) := by
  rw [expr?_object, Reading.exprOf, nodeSpan_self hw rfl]
  simp (disch := decide)

theorem expr?_string (t : Text) (hw : w.reading.span? = some a) :
    (object [("kind", .text "String"), ("value", .text t), ("span", w)]).reading.expr? =
      some (.string t a) := by
  rw [expr?_object, Reading.exprOf, nodeSpan_self hw rfl]
  simp (disch := decide)

theorem expr?_bool (b : Bool) (hw : w.reading.span? = some a) :
    (object [("kind", .text "Bool"), ("value", .bool b), ("span", w)]).reading.expr? =
      some (.bool b a) := by
  rw [expr?_object, Reading.exprOf, nodeSpan_self hw rfl]
  simp (disch := decide)

theorem expr?_null (hw : w.reading.span? = some a) :
    (object [("kind", .text "Null"), ("span", w)]).reading.expr? = some (.null a) := by
  rw [expr?_object, Reading.exprOf, nodeSpan_self hw rfl]
  simp (disch := decide)

theorem expr?_name (t : Text) (hw : w.reading.span? = some a) :
    (object [("kind", .text "Name"), ("name", .text t), ("span", w)]).reading.expr? =
      some (.name ⟨t, a⟩) := by
  have hname := name?_of (t := t) hw
  rw [name?_object] at hname
  rw [expr?_object, Reading.exprOf, hname]
  simp (disch := decide)

theorem expr?_unary (hv : v.reading.expr? = some e) (hw : w.reading.span? = some a) :
    (object [("kind", .text "Unary"), ("operator", .text op.symbol), ("operand", v),
      ("span", w)]).reading.expr? = some (.unary op e a) := by
  rw [expr?_object, Reading.exprOf, nodeSpan_self hw rfl, Reading.nameOf]
  simp (disch := decide) [hv]

theorem expr?_binary {op : BinaryOp} (hv : v.reading.expr? = some e)
    (hv' : v'.reading.expr? = some e') (hw : w.reading.span? = some a) :
    (object [("kind", .text "Binary"), ("operator", .text op.symbol), ("left", v), ("right", v'),
      ("span", w)]).reading.expr? = some (.binary op e e' a) := by
  rw [expr?_object, Reading.exprOf, nodeSpan_self hw rfl, Reading.nameOf]
  simp (disch := decide) [hv, hv']

theorem expr?_assign (hv : v.reading.name? = some name) (hv' : v'.reading.expr? = some e)
    (hw : w.reading.span? = some a) :
    (object [("kind", .text "Assign"), ("target", v), ("value", v'),
      ("span", w)]).reading.expr? = some (.assign name e a) := by
  rw [expr?_object, Reading.exprOf, nodeSpan_self hw rfl, Reading.nameOf]
  simp (disch := decide) [hv, hv']

theorem expr?_call {args : List Expr} (hv : v.reading.expr? = some e)
    (hv' : v'.reading.exprs? = some args) (hw : w.reading.span? = some a) :
    (object [("kind", .text "Call"), ("callee", v), ("args", v'),
      ("span", w)]).reading.expr? = some (.call e args a) := by
  rw [expr?_object, Reading.exprOf, nodeSpan_self hw rfl, Reading.nameOf]
  simp (disch := decide) [hv, hv']

theorem Name.Storable.reading (h : name.Storable) : name.toJson.reading.name? = some name :=
  name?_of h.2.reading

end Expressions

section Statements

variable {e : Expr} {body : Block} {stmts : List Stmt} {v v' u w : Json} {a : Span}
  {value : Option Expr} {t : Text}

theorem block?_of (hv : v.reading.stmts? = some stmts) (hw : w.reading.span? = some a) :
    (object [("kind", .text "Block"), ("statements", v), ("span", w)]).reading.block? =
      some (.mk stmts a) := by
  rw [block?_object, Reading.blockOf, nodeSpan_self hw rfl]
  simp (disch := decide) [hv]

theorem stmt?_block (hv : v.reading.stmts? = some stmts) (hw : w.reading.span? = some a) :
    (object [("kind", .text "Block"), ("statements", v), ("span", w)]).reading.stmt? =
      some (.block (.mk stmts a)) := by
  rw [stmt?_object, Reading.stmtOf, Reading.blockOf, nodeSpan_self hw rfl]
  simp (disch := decide) [hv]

theorem stmt?_conditional {elseBlock : Option Block} (hv : v.reading.expr? = some e)
    (hv' : v'.reading.block? = some body)
    (hu : Reading.orNull Reading.block? u.reading = some elseBlock)
    (hw : w.reading.span? = some a) :
    (object [("kind", .text "If"), ("condition", v), ("thenBlock", v'), ("elseBlock", u),
      ("span", w)]).reading.stmt? = some (.conditional e body elseBlock a) := by
  rw [stmt?_object, Reading.stmtOf, nodeSpan_self hw rfl, Reading.blockOf]
  simp (disch := decide) [hv, hv', hu]

theorem stmt?_whileLoop (hv : v.reading.expr? = some e) (hv' : v'.reading.block? = some body)
    (hw : w.reading.span? = some a) :
    (object [("kind", .text "While"), ("condition", v), ("body", v'),
      ("span", w)]).reading.stmt? = some (.whileLoop e body a) := by
  rw [stmt?_object, Reading.stmtOf, nodeSpan_self hw rfl, Reading.blockOf]
  simp (disch := decide) [hv, hv']

theorem stmt?_loop (hv : v.reading.block? = some body) (hw : w.reading.span? = some a) :
    (object [("kind", .text "Loop"), ("body", v), ("span", w)]).reading.stmt? =
      some (.loop body a) := by
  rw [stmt?_object, Reading.stmtOf, nodeSpan_self hw rfl, Reading.blockOf]
  simp (disch := decide) [hv]

theorem stmt?_breakLoop (hw : w.reading.span? = some a) :
    (object [("kind", .text "Break"), ("span", w)]).reading.stmt? = some (.breakLoop a) := by
  rw [stmt?_object, Reading.stmtOf, nodeSpan_self hw rfl, Reading.blockOf]
  simp (disch := decide)

theorem stmt?_continueLoop (hw : w.reading.span? = some a) :
    (object [("kind", .text "Continue"), ("span", w)]).reading.stmt? =
      some (.continueLoop a) := by
  rw [stmt?_object, Reading.stmtOf, nodeSpan_self hw rfl, Reading.blockOf]
  simp (disch := decide)

theorem stmt?_returnValue (hu : Reading.orNull Reading.expr? u.reading = some value)
    (hw : w.reading.span? = some a) :
    (object [("kind", .text "Return"), ("value", u), ("span", w)]).reading.stmt? =
      some (.returnValue value a) := by
  rw [stmt?_object, Reading.stmtOf, nodeSpan_self hw rfl, Reading.blockOf]
  simp (disch := decide) [hu]

theorem stmt?_binding {isMutable : Bool}
    (hu : Reading.orNull Reading.expr? u.reading = some value) (hw : w.reading.span? = some a) :
    (object [("kind", .text "Let"), ("name", .text t), ("mutable", .bool isMutable), ("init", u),
      ("span", w)]).reading.stmt? = some (.binding t isMutable value a) := by
  rw [stmt?_object, Reading.stmtOf, nodeSpan_self hw rfl, Reading.blockOf]
  simp (disch := decide) [hu]

theorem stmt?_function {params : List Text} (hv : v.reading.texts? = some params)
    (hv' : v'.reading.block? = some body) (hw : w.reading.span? = some a) :
    (object [("kind", .text "Func"), ("name", .text t), ("params", v), ("body", v'),
      ("span", w)]).reading.stmt? = some (.function t params body a) := by
  rw [stmt?_object, Reading.stmtOf, nodeSpan_self hw rfl, Reading.blockOf]
  simp (disch := decide) [hv, hv']

theorem stmt?_expression (hv : v.reading.expr? = some e) (hw : w.reading.span? = some a) :
    (object [("kind", .text "ExprStmt"), ("expression", v), ("span", w)]).reading.stmt? =
      some (.expression e a) := by
  rw [stmt?_object, Reading.stmtOf, nodeSpan_self hw rfl, Reading.blockOf]
  simp (disch := decide) [hv]

theorem program?_of (hv : v.reading.stmts? = some stmts) (hw : w.reading.span? = some a) :
    (object [("kind", .text "Program"), ("statements", v), ("span", w)]).reading.program? =
      some ⟨stmts, a⟩ := by
  rw [program?_object, Reading.programOf, nodeSpan_self hw rfl]
  simp (disch := decide) [hv]

end Statements

theorem reading_array (items : List Json) :
    (array items).reading = Reading.ofLayer (.array (items.map reading)) := by
  have hfold : (array items).reading =
      Reading.ofLayer (.array (foldItems Reading.ofLayer items)) := rfl
  rw [hfold, foldItems_eq_map]
  rfl

theorem exprs?_array {items : List Json} {es : List Expr}
    (h : (items.map reading).mapM Reading.expr? = some es) :
    (array items).reading.exprs? = some es := by
  rw [reading_array]
  exact h

theorem stmts?_array {items : List Json} {stmts : List Stmt}
    (h : (items.map reading).mapM Reading.stmt? = some stmts) :
    (array items).reading.stmts? = some stmts := by
  rw [reading_array]
  exact h

theorem mapM_cons_of_some {β γ : Type} {f : β → Option γ} {b : β} {c : γ} {bs : List β}
    {cs : List γ} (h : f b = some c) (hs : bs.mapM f = some cs) :
    (b :: bs).mapM f = some (c :: cs) := by
  rw [List.mapM_cons, h, hs]
  rfl

mutual

theorem Expr.reading (e : Expr) (h : e.Storable) : e.toJson.reading.expr? = some e := by
  cases e with
  | number value a => exact expr?_number value h.2.reading
  | string value a => exact expr?_string value h.reading
  | bool value a => exact expr?_bool value h.reading
  | null a => exact expr?_null h.reading
  | name n => exact expr?_name n.text h.2.reading
  | unary op operand a => exact expr?_unary (operand.reading h.1) h.2.reading
  | binary op left right a =>
    exact expr?_binary (left.reading h.1) (right.reading h.2.1) h.2.2.reading
  | assign target value a =>
    exact expr?_assign (Name.Storable.reading h.1) (value.reading h.2.1) h.2.2.reading
  | call callee args a =>
    obtain ⟨hc, hs, ha⟩ := h
    exact expr?_call (callee.reading hc) (exprs?_array (Expr.reading_all args hs)) ha.reading

theorem Expr.reading_all (es : List Expr) (h : Expr.AllStorable es) :
    ((Expr.allToJson es).map Json.reading).mapM Reading.expr? = some es := by
  cases es with
  | nil => rfl
  | cons e rest =>
    rw [Expr.allToJson, List.map_cons]
    exact mapM_cons_of_some (e.reading h.1) (Expr.reading_all rest h.2)

end

theorem Expr.isNull_toJson (e : Expr) : e.toJson.reading.isNull = false := by
  cases e <;> rfl

theorem Expr.reading_option (value : Option Expr) (h : value.elim True Expr.Storable) :
    Reading.orNull Reading.expr? (Expr.optionToJson value).reading = some value := by
  cases value with
  | none => rfl
  | some e =>
    rw [Expr.optionToJson, Reading.orNull, e.isNull_toJson, e.reading h]
    rfl

theorem params_reading (params : List Text) :
    (array (params.map .text)).reading.texts? = some params := by
  rw [reading_array]
  change ((params.map Json.text).map Json.reading).mapM Reading.text? = some params
  induction params with
  | nil => rfl
  | cons param rest ih =>
    rw [List.map_cons, List.map_cons]
    exact mapM_cons_of_some rfl ih

mutual

theorem Block.reading (body : Block) (h : body.Storable) :
    body.toJson.reading.block? = some body := by
  obtain ⟨stmts, a⟩ := body
  exact block?_of (stmts?_array (Stmt.reading_all stmts h.1)) h.2.reading

theorem Block.reading_option (body : Option Block) (h : Block.OptionStorable body) :
    Reading.orNull Reading.block? (Block.optionToJson body).reading = some body := by
  cases body with
  | none => rfl
  | some body =>
    have hnull : body.toJson.reading.isNull = false := by
      cases body
      rfl
    rw [Block.optionToJson, Reading.orNull, hnull, body.reading h]
    rfl

theorem Stmt.reading (stmt : Stmt) (h : stmt.Storable) :
    stmt.toJson.reading.stmt? = some stmt := by
  cases stmt with
  | block body =>
    obtain ⟨stmts, a⟩ := body
    exact stmt?_block (stmts?_array (Stmt.reading_all stmts h.1)) h.2.reading
  | conditional condition thenBlock elseBlock a =>
    obtain ⟨hc, ht, he, ha⟩ := h
    exact stmt?_conditional (condition.reading hc) (thenBlock.reading ht)
      (Block.reading_option elseBlock he) ha.reading
  | whileLoop condition body a =>
    exact stmt?_whileLoop (condition.reading h.1) (body.reading h.2.1) h.2.2.reading
  | loop body a => exact stmt?_loop (body.reading h.1) h.2.reading
  | breakLoop a => exact stmt?_breakLoop h.reading
  | continueLoop a => exact stmt?_continueLoop h.reading
  | returnValue value a => exact stmt?_returnValue (Expr.reading_option value h.1) h.2.reading
  | binding name isMutable init a =>
    exact stmt?_binding (Expr.reading_option init h.2.1) h.2.2.reading
  | function name params body a =>
    obtain ⟨-, -, hb, ha⟩ := h
    exact stmt?_function (params_reading params) (body.reading hb) ha.reading
  | expression value a => exact stmt?_expression (value.reading h.1) h.2.reading

theorem Stmt.reading_all (stmts : List Stmt) (h : Stmt.AllStorable stmts) :
    ((Stmt.allToJson stmts).map Json.reading).mapM Reading.stmt? = some stmts := by
  cases stmts with
  | nil => rfl
  | cons stmt rest =>
    rw [Stmt.allToJson, List.map_cons]
    exact mapM_cons_of_some (stmt.reading h.1) (Stmt.reading_all rest h.2)

end

theorem Program.Storable.ofJson?_toJson {p : Program} (h : p.Storable) :
    Program.ofJson? p.toJson = some p :=
  program?_of (stmts?_array (Stmt.reading_all p.statements h.1)) h.2.reading

end BrookSyntax
