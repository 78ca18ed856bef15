import BrookSyntax.Proofs.NodeRecords
import BrookSyntax.Tree.Image

namespace BrookSyntax

/-- Double precision has the natural number. -/
def Binary64.Represents (n : Nat) : Prop := (ofNat n).toInt? = some (n : Int)

/-- A place that is counted from line and column one and has the numbers of double precision. -/
structure Position.Storable (p : Position) : Prop where
  one_le_line : 1 ≤ p.line
  one_le_col : 1 ≤ p.col
  line : Binary64.Represents p.line
  col : Binary64.Represents p.col
  offset : Binary64.Represents p.offset

def Span.Storable (a : Span) : Prop := a.start.Storable ∧ a.stop.Storable

def Name.Storable (name : Name) : Prop := name.text ≠ [] ∧ name.span.Storable

mutual

/-- All numbers in the expression are finite and not negative zero, all names have letters, and all
places can be stored. -/
def Expr.Storable : Expr → Prop
  | .number value span =>
    (value.isFinite ∧ (value.isZero → value.negative = false)) ∧ span.Storable
  | .string _ span | .bool _ span | .null span => span.Storable
  | .name n => n.Storable
  | .unary _ operand span => operand.Storable ∧ span.Storable
  | .binary _ left right span => left.Storable ∧ right.Storable ∧ span.Storable
  | .assign target value span => target.Storable ∧ value.Storable ∧ span.Storable
  | .call callee args span => callee.Storable ∧ Expr.AllStorable args ∧ span.Storable

def Expr.AllStorable : List Expr → Prop
  | [] => True
  | expr :: rest => expr.Storable ∧ Expr.AllStorable rest

end

mutual

def Block.Storable : Block → Prop
  | .mk statements span => Stmt.AllStorable statements ∧ span.Storable

def Block.OptionStorable : Option Block → Prop
  | none => True
  | some body => body.Storable

/-- All numbers in the statement are finite and not negative zero, all names have letters, and all
places can be stored. -/
def Stmt.Storable : Stmt → Prop
  | .block body => body.Storable
  | .conditional condition thenBlock elseBlock span =>
    condition.Storable ∧ thenBlock.Storable ∧ Block.OptionStorable elseBlock ∧ span.Storable
  | .whileLoop condition body span => condition.Storable ∧ body.Storable ∧ span.Storable
  | .loop body span => body.Storable ∧ span.Storable
  | .breakLoop span | .continueLoop span => span.Storable
  | .returnValue value span => value.elim True Expr.Storable ∧ span.Storable
  | .binding name _ init span => name ≠ [] ∧ init.elim True Expr.Storable ∧ span.Storable
  | .function name params body span =>
    name ≠ [] ∧ (∀ param ∈ params, param ≠ []) ∧ body.Storable ∧ span.Storable
  | .expression value span => value.Storable ∧ span.Storable

def Stmt.AllStorable : List Stmt → Prop
  | [] => True
  | stmt :: rest => stmt.Storable ∧ Stmt.AllStorable rest

end

/-- All numbers in the program are finite and not negative zero, all names have letters, and all
places can be stored. -/
def Program.Storable (p : Program) : Prop := Stmt.AllStorable p.statements ∧ p.span.Storable

open Json

theorem conforms_ofNat {n : Nat} {j : Int} (h : Binary64.Represents n) (hj : j ≤ n) :
    (Json.number (.ofNat n)).Conforms (.integer j) :=
  conforms_integer h hj fun _ => rfl

theorem Position.Storable.conforms {p : Position} (h : p.Storable) :
    p.toJson.Conforms (.record .position) := by
  have hline := conforms_ofNat h.line (Int.ofNat_le.2 h.one_le_line)
  have hcol := conforms_ofNat h.col (Int.ofNat_le.2 h.one_le_col)
  have hoffset := conforms_ofNat h.offset (Int.natCast_nonneg _)
  exact conforms_record (.cons ⟨rfl, hline⟩ (.cons ⟨rfl, hcol⟩ (.cons ⟨rfl, hoffset⟩ .nil)))

theorem Span.Storable.conforms {a : Span} (h : a.Storable) : a.toJson.Conforms (.record .span) :=
  conforms_record (.cons ⟨rfl, h.1.conforms⟩ (.cons ⟨rfl, h.2.conforms⟩ .nil))

theorem conforms_node {kind : Text} {members : List (Text × Json)} {fields : List Field} {a : Span}
    {r : Record} (hr : Record.fields r = Record.nodeFields kind fields)
    (h : List.Forall₂ (fun m f => m.1 = f.name ∧ Conforms m.2 f.shape) members fields)
    (ha : a.Storable) : (Json.node kind members a).Conforms (.record r) := by
  apply conforms_record
  rw [hr]
  exact .cons ⟨rfl, conforms_constant kind⟩ (List.rel_append h (.cons ⟨rfl, ha.conforms⟩ .nil))

theorem conforms_name {t : Text} (h : t ≠ []) : (Json.text t).Conforms (.text 1) :=
  conforms_text (List.length_pos_iff.2 h)

theorem Name.Storable.conforms {name : Name} (h : name.Storable) :
    name.toJson.Conforms (.record .name) :=
  conforms_node rfl (.cons ⟨rfl, conforms_name h.1⟩ .nil) h.2

/-- The image of a node conforms to any choice of records that has its own. -/
theorem conforms_choice {kind : Text} {members : List (Text × Json)} {fields : List Field}
    {a : Span} {r : Record} {records : List Record} (hc : Record.IsChoice records)
    (hr : Record.fields r = Record.nodeFields kind fields) (hmem : r ∈ records)
    (h : List.Forall₂ (fun m f => m.1 = f.name ∧ Conforms m.2 f.shape) members fields)
    (ha : a.Storable) : (Json.node kind members a).Conforms (.oneRecord records) :=
  conforms_oneRecord nodeKind (fun _ hr' => Record.kindField_mem (hc.isNode hr')) hc.nodup_kinds
    hmem (conforms_node hr h ha)

mutual

theorem Expr.conforms (e : Expr) (h : e.Storable) : e.toJson.Conforms .expression := by
  cases e with
  | number value a =>
    exact conforms_choice (r := .number) (.inr rfl) rfl (by decide)
      (.cons ⟨rfl, conforms_number h.1.1 h.1.2⟩ .nil) h.2
  | string value a =>
    exact conforms_choice (r := .string) (.inr rfl) rfl (by decide)
      (.cons ⟨rfl, conforms_text (Nat.zero_le _)⟩ .nil) h
  | bool value a =>
    exact conforms_choice (r := .bool) (.inr rfl) rfl (by decide)
      (.cons ⟨rfl, conforms_bool _⟩ .nil) h
  | null a => exact conforms_choice (r := .null) (.inr rfl) rfl (by decide) .nil h
  | name n =>
    exact conforms_choice (r := .name) (.inr rfl) rfl (by decide)
      (.cons ⟨rfl, conforms_name h.1⟩ .nil) h.2
  | unary op operand a =>
    have hop : op.symbol ∈ UnaryOp.all.map UnaryOp.symbol := by cases op <;> decide
    exact conforms_choice (r := .unary) (.inr rfl) rfl (by decide)
      (.cons ⟨rfl, conforms_anyText hop⟩ (.cons ⟨rfl, operand.conforms h.1⟩ .nil)) h.2
  | binary op left right a =>
    obtain ⟨hl, hr, ha⟩ := h
    have hop : op.symbol ∈ BinaryOp.all.map BinaryOp.symbol := by cases op <;> decide
    exact conforms_choice (r := .binary) (.inr rfl) rfl (by decide)
      (.cons ⟨rfl, conforms_anyText hop⟩ (.cons ⟨rfl, left.conforms hl⟩
        (.cons ⟨rfl, right.conforms hr⟩ .nil))) ha
  | assign target value a =>
    obtain ⟨ht, hv, ha⟩ := h
    exact conforms_choice (r := .assign) (.inr rfl) rfl (by decide)
      (.cons ⟨rfl, ht.conforms⟩ (.cons ⟨rfl, value.conforms hv⟩ .nil)) ha
  | call callee args a =>
    obtain ⟨hc, hs, ha⟩ := h
    exact conforms_choice (r := .call) (.inr rfl) rfl (by decide)
      (.cons ⟨rfl, callee.conforms hc⟩
        (.cons ⟨rfl, conforms_list (Expr.conforms_all args hs)⟩ .nil)) ha

theorem Expr.conforms_all (es : List Expr) (h : Expr.AllStorable es) :
    ∀ item ∈ Expr.allToJson es, item.Conforms .expression := by
  cases es with
  | nil => exact nofun
  | cons e rest =>
    rw [Expr.allToJson, List.forall_mem_cons]
    exact ⟨e.conforms h.1, Expr.conforms_all rest h.2⟩

end

theorem Expr.conforms_option (value : Option Expr) (h : value.elim True Expr.Storable) :
    (Expr.optionToJson value).Conforms (.orNull .expression) := by
  cases value with
  | none => exact conforms_null _
  | some e => exact conforms_orNull (e.conforms h)

theorem conforms_params {params : List Text} (h : ∀ param ∈ params, param ≠ []) :
    (Json.array (params.map .text)).Conforms (.list (.text 1)) := by
  apply conforms_list
  intro item hitem
  obtain ⟨param, hp, rfl⟩ := List.mem_map.1 hitem
  exact conforms_name (h param hp)

mutual

theorem Block.conforms (body : Block) (h : body.Storable) :
    body.toJson.Conforms (.record .block) := by
  obtain ⟨stmts, a⟩ := body
  exact conforms_node rfl (.cons ⟨rfl, conforms_list (Stmt.conforms_all stmts h.1)⟩ .nil) h.2

theorem Block.conforms_option (body : Option Block) (h : Block.OptionStorable body) :
    (Block.optionToJson body).Conforms (.orNull (.record .block)) := by
  cases body with
  | none => exact conforms_null _
  | some body => exact conforms_orNull (body.conforms h)

theorem Stmt.conforms (stmt : Stmt) (h : stmt.Storable) : stmt.toJson.Conforms .statement := by
  cases stmt with
  | block body =>
    obtain ⟨stmts, a⟩ := body
    exact conforms_choice (r := .block) (.inl rfl) rfl (by decide)
      (.cons ⟨rfl, conforms_list (Stmt.conforms_all stmts h.1)⟩ .nil) h.2
  | conditional condition thenBlock elseBlock a =>
    obtain ⟨hc, ht, he, ha⟩ := h
    exact conforms_choice (r := .conditional) (.inl rfl) rfl (by decide)
      (.cons ⟨rfl, condition.conforms hc⟩ (.cons ⟨rfl, thenBlock.conforms ht⟩
        (.cons ⟨rfl, Block.conforms_option elseBlock he⟩ .nil))) ha
  | whileLoop condition body a =>
    obtain ⟨hc, hb, ha⟩ := h
    exact conforms_choice (r := .whileLoop) (.inl rfl) rfl (by decide)
      (.cons ⟨rfl, condition.conforms hc⟩ (.cons ⟨rfl, body.conforms hb⟩ .nil)) ha
  | loop body a =>
    exact conforms_choice (r := .loop) (.inl rfl) rfl (by decide)
      (.cons ⟨rfl, body.conforms h.1⟩ .nil) h.2
  | breakLoop a => exact conforms_choice (r := .breakLoop) (.inl rfl) rfl (by decide) .nil h
  | continueLoop a => exact conforms_choice (r := .continueLoop) (.inl rfl) rfl (by decide) .nil h
  | returnValue value a =>
    exact conforms_choice (r := .returnValue) (.inl rfl) rfl (by decide)
      (.cons ⟨rfl, Expr.conforms_option value h.1⟩ .nil) h.2
  | binding name isMutable init a =>
    obtain ⟨hname, hi, ha⟩ := h
    exact conforms_choice (r := .binding) (.inl rfl) rfl (by decide)
      (.cons ⟨rfl, conforms_name hname⟩ (.cons ⟨rfl, conforms_bool isMutable⟩
        (.cons ⟨rfl, Expr.conforms_option init hi⟩ .nil))) ha
  | function name params body a =>
    obtain ⟨hname, hparams, hb, ha⟩ := h
    exact conforms_choice (r := .function) (.inl rfl) rfl (by decide)
      (.cons ⟨rfl, conforms_name hname⟩ (.cons ⟨rfl, conforms_params hparams⟩
        (.cons ⟨rfl, body.conforms hb⟩ .nil))) ha
  | expression value a =>
    exact conforms_choice (r := .expression) (.inl rfl) rfl (by decide)
      (.cons ⟨rfl, value.conforms h.1⟩ .nil) h.2

theorem Stmt.conforms_all (stmts : List Stmt) (h : Stmt.AllStorable stmts) :
    ∀ item ∈ Stmt.allToJson stmts, item.Conforms .statement := by
  cases stmts with
  | nil => exact nofun
  | cons stmt rest =>
    rw [Stmt.allToJson, List.forall_mem_cons]
    exact ⟨stmt.conforms h.1, Stmt.conforms_all rest h.2⟩

end

theorem Program.Storable.conforms {p : Program} (h : p.Storable) :
    p.toJson.Conforms (.record .program) :=
  conforms_node rfl (.cons ⟨rfl, conforms_list (Stmt.conforms_all _ h.1)⟩ .nil) h.2

end BrookSyntax
