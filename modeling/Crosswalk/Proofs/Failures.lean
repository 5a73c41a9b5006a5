import Crosswalk.Proofs.Batch
import Crosswalk.Proofs.Conversion.Descent

/-!
# What fails once a batch is linked

Linking resolves every name before any declaration is converted. So no conversion of a batch that
links meets a name that stands for nothing; only in lenient resolution, a name can come to stand for
a type that is declared in the namespace of XML Schema itself, where XML Schema has none. Loops are
not all found by linking. A conversion that reports one is right if the anonymous types of elements
are taken to belong to the declaration around them.
-/

namespace Crosswalk

namespace Batch

open Conversion Declarations

variable {catalog : Catalog} {resolution : Resolution} {file : File}

/-! ### Names -/

/-- What a conversion misses although every reference stands for something is a type that was
declared as one of XML Schema itself, and was found under another name. -/
theorem declared_of_unresolvedName {l : Linkage} (hlinked : l.IsLinked)
    (hresolved : ∀ file ∈ l.catalog.files, ∀ r ∈ file.schema.references,
      (l.resolve? r.kind file r.name).isSome = true)
    {options : Options} (hf : file ∈ l.catalog.files) {filename referencing : String}
    {name : QName}
    (h : .unresolvedName filename referencing name ∈ (convertFile ⟨l, options, file⟩).2) :
    l.resolution = .lenient ∧ ∃ other ∈ l.catalog.files, ∃ t ∈ other.schema.types,
      t.name.isBuiltin = true ∧ Datatype.isKnown t.name.name = false := by
  have hcause : l.Causes (.unresolvedName filename referencing name) :=
    @causes_of_convertFile ⟨l, options, file⟩ hlinked hf _ h rfl
  rcases hcause with ⟨_, hfile, hr, hnone⟩ | ⟨_, _, hr, hb, hown, hk⟩ | _
  · exact absurd (hresolved _ hfile _ hr) (by simp [hnone])
  · next scope asked r =>
      have hr' : l.resolve? Row.types.kind scope asked = some r := hr
      have hc := Linkage.contains_of_resolve?_of hr' (.inl hb)
      rw [Row.contains_table, Table.contains, Option.isSome_iff_exists] at hc
      obtain ⟨located, hl⟩ := hc
      obtain ⟨hother, hd, hn⟩ := hlinked.located .types hl
      have hn : located.declaration.name = r.name := hn
      refine ⟨?_, _, hother, _, hd, hn ▸ hown, hn ▸ hk⟩
      cases hres : l.resolution with
      | lenient => rfl
      | strict =>
          rw [Linkage.name_of_resolve?_strict hres hr, hb] at hown
          exact absurd hown Bool.false_ne_true

/-- In a batch that links, every reference stands for something, and no conversion misses a name.
In lenient resolution this needs that the types declared in the namespace of XML Schema are types
that it has. -/
theorem lookups_succeed
    (hd : ∀ f ∈ catalog.files, ∀ g ∈ catalog.files, f.filename = g.filename → f = g)
    (hlinks : ∀ p ∈ (Linkage.ofCatalog catalog resolution).2, p.isFatal = false)
    (hknown : resolution = .lenient → ∀ other ∈ catalog.files, ∀ t ∈ other.schema.types,
      t.name.isBuiltin = true → Datatype.isKnown t.name.name = true)
    (options : Options) (hf : file ∈ catalog.files) :
    (∀ r ∈ file.schema.references,
      ((Linkage.ofCatalog catalog resolution).1.resolve? r.kind file r.name).isSome = true) ∧
    ∀ filename referencing name, .unresolvedName filename referencing name ∉
      (convertFile ⟨(Linkage.ofCatalog catalog resolution).1, options, file⟩).2 := by
  have hresolved := fun {file : File} (hf : file ∈ catalog.files) (r : Reference)
    (hr : r ∈ file.schema.references) => Linkage.resolves_of_ofCatalog hd hlinks hf hr
  refine ⟨hresolved hf, fun filename referencing name h => ?_⟩
  obtain ⟨hlenient, other, ho, t, ht, hown, hk⟩ := declared_of_unresolvedName
    (Linkage.isLinked_ofCatalog catalog resolution) (fun _ hf => hresolved hf) hf h
  exact absurd ((hknown hlenient other ho t ht hown).symm.trans hk) Bool.noConfusion

/-- A file of a namespace that declares types, and depends on what has no namespace. -/
def fileOf (name space : String) (types : List NamedType) : File :=
  ⟨name, name, "", ⟨space, .unqualified, .unqualified, [], [⟨.imported, "", none⟩], none, types, [],
    [], [], []⟩⟩

/-- A file with a type whose base is declared, but by another file and in another namespace. -/
def asking : File := fileOf "a" "n"
  [⟨⟨"n", "t"⟩, .complex ⟨.simple ⟨"n", "c"⟩ .extension [], [], false, false⟩, none⟩]

/-- The other file. -/
def answering : File := fileOf "b" ""
  [⟨⟨"", "c"⟩, .simple (.restriction (.named (.xsd "token")) []), none⟩]

theorem lookups_succeed_asking :
    (∀ r ∈ asking.schema.references,
      ((Linkage.ofCatalog ⟨[asking, answering]⟩ .lenient).1.resolve? r.kind asking r.name).isSome =
        true) ∧
    ∀ filename referencing name, .unresolvedName filename referencing name ∉
      (convertFile ⟨(Linkage.ofCatalog ⟨[asking, answering]⟩ .lenient).1, {}, asking⟩).2 :=
  lookups_succeed (by simp [asking, answering, fileOf]) (by decide +kernel)
    (fun _ => by decide +kernel) {} List.mem_cons_self

/-! ### Loops -/

/-- A loop that a conversion reports is one: the declaration unfolds to itself. -/
theorem reaches_of_cycle {options : Options} (hf : file ∈ catalog.files) {filename : String}
    {q : QName}
    (h : .cycle filename q ∈
      (convertFile ⟨(Linkage.ofCatalog catalog resolution).1, options, file⟩).2) :
    ∃ kind : DeclarationKind,
      (Linkage.ofCatalog catalog resolution).1.Reaches (kind, q) (kind, q) := by
  have hcause : (Linkage.ofCatalog catalog resolution).1.Causes (.cycle filename q) :=
    @causes_of_convertFile ⟨(Linkage.ofCatalog catalog resolution).1, options, file⟩
      (Linkage.isLinked_ofCatalog catalog resolution) hf _ h rfl
  rcases hcause with _ | _ | ⟨-, hloop⟩
  exact ⟨_, hloop⟩

/-- A file with a type that has an element whose anonymous type extends it. -/
def unfolding : File := fileOf "a" "" [⟨⟨"", "t"⟩, .complex ⟨.particle ⟨.zero, .one,
  .element ⟨⟨"", "e"⟩, false, .complex ⟨.extension ⟨"", "t"⟩ none, [], false, false⟩, false, none,
    none, none⟩⟩, [], false, false⟩, none⟩]

theorem reaches_of_cycle_unfolding : ∃ kind : DeclarationKind,
    (Linkage.ofCatalog ⟨[unfolding]⟩ .strict).1.Reaches (kind, ⟨"", "t"⟩) (kind, ⟨"", "t"⟩) := by
  have h : .cycle "a" ⟨"", "t"⟩ ∈
      (convertFile ⟨(Linkage.ofCatalog ⟨[unfolding]⟩ .strict).1, {}, unfolding⟩).2 := by
    decide +kernel
  exact reaches_of_cycle List.mem_cons_self h

end Batch

end Crosswalk
