import Crosswalk.Proofs.Linkage.Resolution
import Mathlib.Data.Set.Finite.Basic
import Mathlib.Logic.Relation
import Mathlib.Order.WellFoundedSet

/-!
# What unions offer

A value of a union is one of any of its members, and a value of a restriction is one of its base. So
a simple type offers the named types that are members of the union it comes down to, through
restrictions and through types without a name. Offers are not derivations: a type may offer another
one that derives from it, or itself.
-/

namespace Crosswalk

namespace Linkage

/-- A simple type in a file offers a named type. -/
inductive Offers (l : Linkage) : File → SimpleType → Located NamedType → Prop where
  /-- It is a union, and the named type is a member. -/
  | named {file : File} {members : List SimpleBase} {name : QName} {located : Located NamedType} :
    .named name ∈ members → name.isBuiltin = false → l.type? file name = some located →
      Offers l file (.union members) located
  /-- It is a union, and a member without name offers the named type. -/
  | inline {file : File} {members : List SimpleBase} {type : SimpleType}
    {located : Located NamedType} :
    .inline type ∈ members → Offers l file type located → Offers l file (.union members) located
  /-- It restricts a type without name that does. -/
  | within {file : File} {type : SimpleType} {facets : List Facet} {located : Located NamedType} :
    Offers l file type located → Offers l file (.restriction (.inline type) facets) located
  /-- It restricts a named type that does. -/
  | base {file : File} {name : QName} {facets : List Facet} {found : Located NamedType}
    {type : SimpleType} {located : Located NamedType} :
    name.isBuiltin = false → l.type? file name = some found →
      found.declaration.definition = .simple type → Offers l found.file type located →
        Offers l file (.restriction (.named name) facets) located

/-- A declared simple type offers another one. -/
def Offering (l : Linkage) (a b : QName) : Prop :=
  ∃ file ∈ l.catalog.files, ∃ t ∈ file.schema.types, t.name = a ∧
    ∃ type, t.definition = .simple type ∧
      ∃ located, l.Offers file type located ∧ located.declaration.name = b

variable {l : Linkage} {file : File} {type : SimpleType} {located : Located NamedType}

/-- What is offered was found under some name. -/
theorem Offers.found (h : l.Offers file type located) :
    ∃ scope name, l.type? scope name = some located := by
  induction h with
  | named _ _ hl => exact ⟨_, _, hl⟩
  | inline _ _ ih => exact ih
  | within _ ih => exact ih
  | base _ _ _ _ ih => exact ih

/-- What is offered is declared. -/
theorem Offering.declared (hlinked : l.IsLinked) {a b : QName} (h : l.Offering a b) :
    b ∈ Table.keys l.declarations.types := by
  obtain ⟨_, -, _, -, -, _, -, located, ho, rfl⟩ := h
  obtain ⟨scope, name, hl⟩ := ho.found
  obtain ⟨r, -, hf⟩ := Option.bind_eq_some_iff.1 hl
  obtain ⟨-, -, hn⟩ := hlinked.located .types hf
  have hn : located.declaration.name = r.name := hn
  rw [hn]
  exact List.mem_map.2 ⟨_, Table.mem_of_find? hf, rfl⟩

/-- If no type offers itself, offers come to an end. -/
theorem wellFounded_offering (hlinked : l.IsLinked)
    (h : ∀ q, ¬ Relation.TransGen l.Offering q q) : WellFounded fun b a => l.Offering a b := by
  have strict : IsStrictOrder QName fun b a => Relation.TransGen l.Offering a b :=
    { irrefl := h, trans := fun _ _ _ hba hcb => hcb.trans hba }
  have hfinite : {q | q ∈ Table.keys l.declarations.types}.Finite :=
    List.finite_toSet (Table.keys l.declarations.types)
  have wf : Set.WellFoundedOn {q | q ∈ Table.keys l.declarations.types}
      fun b a => Relation.TransGen l.Offering a b := hfinite.wellFoundedOn
  have declared : ∀ q ∈ Table.keys l.declarations.types, Acc (fun b a => l.Offering a b) q :=
    fun q hq => wf.induction hq fun a _ ih =>
      .intro a fun b hab => ih b (hab.declared hlinked) (.single hab)
  exact ⟨fun a => .intro a fun b hab => declared b (hab.declared hlinked)⟩

end Linkage

end Crosswalk
