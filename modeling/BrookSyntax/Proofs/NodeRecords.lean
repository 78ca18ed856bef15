import BrookSyntax.Proofs.Violations

namespace BrookSyntax

deriving instance DecidableEq for Shape

open Json

/-- The kind of the nodes of a record. -/
def nodeKind (r : Record) : Text :=
  match Record.fields r with
  | { shape := .constant kind, .. } :: _ => kind
  | _ => []

namespace Record

variable {r r' : Record}

/-- The record is one of nodes. -/
def isNode : Record → Bool
  | document | metadata | position | span => false
  | _ => true

theorem mem_all (r : Record) : r ∈ all := by
  cases r <;> decide

theorem fields_eq_kindField (h : r.isNode) :
    ∃ rest, Record.fields r = kindField (nodeKind r) :: rest := by
  cases r with
  | document | metadata | position | span => cases h
  | _ => exact ⟨_, rfl⟩

theorem kindField_mem (h : r.isNode) : kindField (nodeKind r) ∈ Record.fields r := by
  obtain ⟨rest, hrest⟩ := fields_eq_kindField h
  rw [hrest]
  exact List.mem_cons_self

theorem nodeKind_inj (hr : r.isNode) (hr' : r'.isNode) (h : nodeKind r = nodeKind r') : r = r' := by
  have hnodup : ((all.filter isNode).map nodeKind).Nodup := by decide
  exact List.inj_on_of_nodup_map hnodup (List.mem_filter.2 ⟨mem_all r, hr⟩)
    (List.mem_filter.2 ⟨mem_all r', hr'⟩) h

/-- A choice of nodes that one place leaves. -/
def IsChoice (records : List Record) : Prop := records = statements ∨ records = expressions

variable {records : List Record}

theorem IsChoice.isNode (h : IsChoice records) (hr : r ∈ records) : r.isNode := by
  have hstatements : ∀ r ∈ statements, r.isNode := by decide
  have hexpressions : ∀ r ∈ expressions, r.isNode := by decide
  obtain rfl | rfl := h
  · exact hstatements r hr
  · exact hexpressions r hr

theorem IsChoice.nodup_kinds (h : IsChoice records) : (records.map nodeKind).Nodup := by
  obtain rfl | rfl := h <;> decide

theorem IsChoice.nodup (h : IsChoice records) : records.Nodup := h.nodup_kinds.of_map nodeKind

theorem IsChoice.two_le (h : IsChoice records) :
    ∃ first second rest, records = first :: second :: rest := by
  obtain rfl | rfl := h <;> exact ⟨_, _, _, rfl⟩

/-- Fields of one name have one shape in all records of a choice, or hold no nodes. -/
theorem IsChoice.shape_eq (h : IsChoice records) (hr : r ∈ records) (hr' : r' ∈ records)
    {field field' : Field} (hf : field ∈ Record.fields r) (hf' : field' ∈ Record.fields r')
    (hname : field.name = field'.name) :
    field'.shape = field.shape ∨ field'.shape.isFlat ∨ field.shape.isFlat := by
  have hstatements : ∀ r ∈ statements, ∀ r' ∈ statements, ∀ field ∈ Record.fields r,
      ∀ field' ∈ Record.fields r', field.name = field'.name →
        field'.shape = field.shape ∨ field'.shape.isFlat ∨ field.shape.isFlat := by
    decide +kernel
  have hexpressions : ∀ r ∈ expressions, ∀ r' ∈ expressions, ∀ field ∈ Record.fields r,
      ∀ field' ∈ Record.fields r', field.name = field'.name →
        field'.shape = field.shape ∨ field'.shape.isFlat ∨ field.shape.isFlat := by
    decide +kernel
  obtain rfl | rfl := h
  · exact hstatements r hr r' hr' field hf field' hf' hname
  · exact hexpressions r hr r' hr' field hf field' hf' hname

end Record

namespace Json

variable {members : List (Text × Json)} {r r' : Record}

theorem lookup_kind (hr : r.isNode) (h : (object members).Fits (.record r)) :
    members.lookup ("kind" : Text) = some (.text (nodeKind r)) := by
  obtain ⟨hrequired, -, hfits⟩ := fits_object.1 h
  have hmem := Record.kindField_mem hr
  obtain ⟨v, hv⟩ := Option.isSome_iff_exists.1 (hrequired _ hmem rfl)
  obtain rfl := fits_constant.1 (hfits _ hmem v hv)
  exact hv

theorem record_unique (hr : r.isNode) (hr' : r'.isNode) (h : (object members).Fits (.record r))
    (h' : (object members).Fits (.record r')) : r = r' := by
  have hkind := lookup_kind hr h
  rw [lookup_kind hr' h', Option.some_inj, Json.text.injEq] at hkind
  exact Record.nodeKind_inj hr hr' hkind.symm

end Json

end BrookSyntax
