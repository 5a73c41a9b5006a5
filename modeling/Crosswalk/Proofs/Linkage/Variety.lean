import Crosswalk.Proofs.Facet.Literals
import Crosswalk.Proofs.Linkage.Offer

/-!
# What simple types come down to

Through restrictions and names, a simple type comes down to a datatype with the facets of all steps
from there, to a list, or to a union with its members (`Linkage.HasVariety`), and to one of them
only (`Linkage.HasVariety.unique`). What it takes as a text follows from that: a list nothing, for
its values are no texts, and a union what any of its members takes, on through unions of unions
(`Linkage.TakesText`).
-/

namespace Crosswalk

/-- What a simple type comes down to. -/
inductive Variety where
  /-- A datatype, restricted in steps. -/
  | atomic (datatype : Datatype) (steps : List (List Facet))
  | list
  /-- The members are referred to from a file. -/
  | union (scope : File) (members : List SimpleBase)

namespace Variety

/-- Behind a further step. -/
def restrict : Variety → List Facet → Variety
  | atomic datatype steps, facets => atomic datatype (steps ++ [facets])
  | list, _ => list
  | union scope members, _ => union scope members

/-- The space of the values. -/
def space : Variety → ValueSpace
  | atomic datatype _ => datatype.space
  | list => .text
  | union _ _ => .text

end Variety

namespace Linkage

variable {l : Linkage} {scope : File} {base : SimpleBase} {name : QName} {v w : Variety}
  {text : String}

/-- The name stands for a type that is not simple. A restriction of it is one of any simple
value. -/
def IsBroad (l : Linkage) (scope : File) (name : QName) : Prop :=
  if name.isBuiltin then name.name = "anyType"
  else ∃ found type, l.type? scope name = some found ∧ found.declaration.definition = .complex type

/-- A simple type that a file refers to comes down to this. -/
inductive HasVariety (l : Linkage) : File → SimpleBase → Variety → Prop where
  | builtin {scope : File} {name : QName} {datatype : Datatype} (hb : name.isBuiltin = true)
    (hd : Datatype.find? name.name = some datatype) :
    HasVariety l scope (.named name) (.atomic datatype [])
  | named {scope : File} {name : QName} {found : Located NamedType} {type : SimpleType}
    {v : Variety} (hb : name.isBuiltin = false) (hl : l.type? scope name = some found)
    (ht : found.declaration.definition = .simple type)
    (h : HasVariety l found.file (.inline type) v) : HasVariety l scope (.named name) v
  | restriction {scope : File} {base : SimpleBase} {facets : List Facet} {v : Variety}
    (h : HasVariety l scope base v) :
    HasVariety l scope (.inline (.restriction base facets)) (v.restrict facets)
  | anything {scope : File} {name : QName} {facets : List Facet} {datatype : Datatype}
    (hb : l.IsBroad scope name) (hd : Datatype.find? "anySimpleType" = some datatype) :
    HasVariety l scope (.inline (.restriction (.named name) facets)) (.atomic datatype [facets])
  | list {scope : File} {item : SimpleBase} : HasVariety l scope (.inline (.list item)) .list
  | union {scope : File} {members : List SimpleBase} :
    HasVariety l scope (.inline (.union members)) (.union scope members)

theorem IsBroad.not_hasVariety (h : l.IsBroad scope name) :
    ¬ l.HasVariety scope (.named name) v := by
  intro hv
  unfold IsBroad at h
  cases hv with
  | builtin hb hd =>
      rw [if_pos hb] at h
      have hnone : Datatype.find? "anyType" = none := by decide
      rw [h, hnone] at hd
      cases hd
  | named hb hl ht =>
      rw [hb, if_neg Bool.false_ne_true] at h
      obtain ⟨found, type, hl', ht'⟩ := h
      obtain rfl := Option.some.inj (hl.symm.trans hl')
      exact TypeDefinition.noConfusion (ht.symm.trans ht')

/-- A simple type comes down to one thing. -/
theorem HasVariety.unique (h : l.HasVariety scope base v) (h' : l.HasVariety scope base w) :
    v = w := by
  induction h generalizing w with
  | builtin hb hd =>
      cases h' with
      | builtin _ hd' => rw [Option.some.inj (hd.symm.trans hd')]
      | named hb' => exact absurd (hb.symm.trans hb') (by decide)
  | named hb hl ht _ ih =>
      cases h' with
      | builtin hb' => exact absurd (hb.symm.trans hb') (by decide)
      | named _ hl' ht' hv =>
          obtain rfl := Option.some.inj (hl.symm.trans hl')
          obtain rfl := TypeDefinition.simple.inj (ht.symm.trans ht')
          exact ih hv
  | restriction h ih =>
      cases h' with
      | restriction hv => rw [ih hv]
      | anything hb => exact absurd h hb.not_hasVariety
  | anything hb hd =>
      cases h' with
      | restriction hv => exact absurd hv hb.not_hasVariety
      | anything _ hd' => rw [Option.some.inj (hd.symm.trans hd')]
  | list =>
      cases h'
      rfl
  | union =>
      cases h'
      rfl

/-! ### Texts -/

/-- A simple type that a file refers to takes a text. -/
inductive TakesText (l : Linkage) (text : String) : File → SimpleBase → Prop where
  | atomic {scope : File} {base : SimpleBase} {datatype : Datatype} {steps : List (List Facet)}
    (hv : l.HasVariety scope base (.atomic datatype steps))
    (h : (FacetSet.derive datatype steps).TakesText datatype text) : TakesText l text scope base
  | member {scope inner : File} {base member : SimpleBase} {members : List SimpleBase}
    (hv : l.HasVariety scope base (.union inner members)) (hm : member ∈ members)
    (h : TakesText l text inner member) : TakesText l text scope base
  /-- The type of anything at all takes every text. -/
  | anything {scope : File} {name : QName} (hb : name.isBuiltin = true)
    (hn : name.name = "anyType") : TakesText l text scope (.named name)

end Linkage

/-- What comes down to this takes a text. -/
def Variety.TakesText (l : Linkage) (text : String) : Variety → Prop
  | atomic datatype steps => (FacetSet.derive datatype steps).TakesText datatype text
  | list => False
  | union scope members => ∃ member ∈ members, l.TakesText text scope member

/-- What comes down to this takes the value that a literal is written as. -/
def Variety.Takes (l : Linkage) (lexical : String) : Variety → Prop
  | atomic datatype steps => (FacetSet.derive datatype steps).Takes datatype lexical
  | list => False
  | union scope members => ∃ member ∈ members, l.TakesText lexical scope member

namespace Linkage

variable {l : Linkage} {scope : File} {base : SimpleBase} {name : QName} {v : Variety}
  {text : String}

theorem HasVariety.takesText_iff (h : l.HasVariety scope base v) :
    l.TakesText text scope base ↔ v.TakesText l text := by
  constructor
  · intro ht
    cases ht with
    | atomic hv ht => exact h.unique hv ▸ ht
    | member hv hm ht => exact h.unique hv ▸ ⟨_, hm, ht⟩
    | anything hb hn =>
        have hbroad : l.IsBroad scope _ := (if_pos hb).mpr hn
        exact absurd h hbroad.not_hasVariety
  · intro ht
    cases v with
    | atomic datatype steps => exact .atomic h ht
    | list => exact ht.elim
    | union inner members =>
        obtain ⟨member, hm, ht⟩ := ht
        exact .member h hm ht

/-- A named type takes a text if it is simple and takes it where it is declared. -/
theorem takesText_named_iff (hb : name.isBuiltin = false) {found : Located NamedType}
    (hl : l.type? scope name = some found) : l.TakesText text scope (.named name) ↔
      ∃ type, found.declaration.definition = .simple type ∧
        l.TakesText text found.file (.inline type) := by
  have declared : ∀ {v : Variety}, l.HasVariety scope (.named name) v →
      ∃ type, found.declaration.definition = .simple type ∧
        l.HasVariety found.file (.inline type) v := by
    intro v hv
    cases hv with
    | builtin hb' => exact absurd (hb.symm.trans hb') (by decide)
    | named _ hl' ht hv =>
        obtain rfl := Option.some.inj (hl.symm.trans hl')
        exact ⟨_, ht, hv⟩
  constructor
  · intro h
    cases h with
    | atomic hv h =>
        obtain ⟨type, ht, hv⟩ := declared hv
        exact ⟨type, ht, .atomic hv h⟩
    | member hv hm h =>
        obtain ⟨type, ht, hv⟩ := declared hv
        exact ⟨type, ht, .member hv hm h⟩
    | anything hb' => exact absurd (hb.symm.trans hb') (by decide)
  · rintro ⟨type, ht, h⟩
    cases h with
    | atomic hv h => exact .atomic (.named hb hl ht hv) h
    | member hv hm h => exact .member (.named hb hl ht hv) hm h

end Linkage

end Crosswalk
