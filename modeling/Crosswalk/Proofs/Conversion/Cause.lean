import Crosswalk.Proofs.Conversion.Frame
import Crosswalk.Proofs.Linkage.Unfold

/-!
# What conversions fail for

`FailsOnly v Q c` says of a conversion that is inside of the declarations `v`: it fails with nothing
but a problem of which `Q` is true, and is inside of the same declarations afterwards. Most of what
a conversion consists of never fails at all, for diagnostics are noted and problems with literals
are caught. What can fail is a lookup, and the expansion of a declaration that the conversion is
inside of.

So there are two reasons for a conversion to fail: a name stands for nothing, or a declaration
unfolds to itself. To tell the second one, the declarations that a conversion is inside of are
followed: each of them reaches whatever is expanded next, so that one which is expanded again reaches
itself. They are also all different, and so there is room for every one in the depth that expansions
have.

One failure is neither. The simple type at the end of a chain of types with simple content may be
taken for one of XML Schema itself when it is only declared in the namespace of XML Schema.
-/

namespace Crosswalk

/-! ### Conversions that fail only in some ways -/

namespace Conversion

variable {α β : Type} {v : Visited} {Q : Problem → Prop}

/-- From inside of these declarations, the conversion fails only like this, and stays inside. -/
def FailsOnly (v : Visited) (Q : Problem → Prop) (c : Conversion α) : Prop :=
  ∀ s, s.visited = v → (run c s).2.visited = v ∧ ∀ p, (run c s).1 = .error p → Q p

namespace FailsOnly

variable {c : Conversion α} {f : α → Conversion β}

theorem pure (a : α) : FailsOnly v Q (Pure.pure a : Conversion α) :=
  fun _ hs => ⟨hs, fun _ hp => nomatch hp⟩

theorem throw {p : Problem} (h : Q p) : FailsOnly v Q (MonadExcept.throw p : Conversion α) :=
  fun _ hs => ⟨hs, fun _ hq => Except.error.inj hq ▸ h⟩

/-- The second step may use what the first one yields. -/
theorem bind_of {P : α → Prop} (hc : FailsOnly v Q c) (hP : Yields c P)
    (hf : ∀ a, P a → FailsOnly v Q (f a)) : FailsOnly v Q (c >>= f) := by
  intro s hs
  obtain ⟨hv, hQ⟩ := hc s hs
  rw [run_bind]
  rcases hr : run c s with ⟨r, t⟩
  rw [hr] at hv hQ
  cases r with
  | ok a => exact hf a (hP s t a hr) t hv
  | error p => exact ⟨hv, fun q hq => hQ q (by simpa using hq)⟩

theorem bind (hc : FailsOnly v Q c) (hf : ∀ a, FailsOnly v Q (f a)) :
    FailsOnly v Q (c >>= f) :=
  hc.bind_of .trivial fun a _ => hf a

theorem map {g : α → β} (hc : FailsOnly v Q c) :
    FailsOnly v Q (c >>= fun a => Pure.pure (g a)) :=
  hc.bind fun a => pure (g a)

theorem ite {d : Conversion α} {p : Prop} [Decidable p] (hc : FailsOnly v Q c)
    (hd : FailsOnly v Q d) : FailsOnly v Q (if p then c else d) := by
  split
  · exact hc
  · exact hd

/-- A lookup fails if nothing is found. -/
theorem found {scope : File} {referencing : String} {name : QName} {result : Option α}
    (h : result = none → Q (.unresolvedName scope.filename referencing name)) :
    FailsOnly v Q (Conversion.found scope referencing name result) := by
  cases result with
  | none => exact throw (h rfl)
  | some a => exact pure a

/-- What follows a lookup may use what was found. -/
theorem found_bind {scope : File} {referencing : String} {name : QName} {result : Option α}
    (h : result = none → Q (.unresolvedName scope.filename referencing name))
    (hf : ∀ a, result = some a → FailsOnly v Q (f a)) :
    FailsOnly v Q (Conversion.found scope referencing name result >>= f) :=
  (found h).bind_of (Yields.found fun _ ha => ha) hf

/-- Expanding a declaration fails if the conversion is inside of it, or if the expansion fails. -/
theorem visiting {kind : Expandable} {scope : File} {name : QName}
    (hcycle : name ∈ kind.of v → Q (.cycle scope.filename name))
    (hc : name ∉ kind.of v → FailsOnly (kind.set v (name :: kind.of v)) Q c) :
    FailsOnly v Q (Conversion.visiting kind scope name c) := by
  rintro s rfl
  rw [run_visiting]
  split
  · next hm => exact ⟨rfl, fun p hp => Except.error.inj hp ▸ hcycle hm⟩
  · next hm =>
      obtain ⟨hv, hQ⟩ := hc hm (entering kind name s) rfl
      exact ⟨visited_leaving_entering kind name hv, hQ⟩

end FailsOnly

/-! ### Conversions that do not fail -/

/-- The conversion results in something, and is inside of the same declarations afterwards. -/
def Silent (c : Conversion α) : Prop := ∀ v, FailsOnly v (fun _ => False) c

theorem Silent.failsOnly {c : Conversion α} (h : Silent c) : FailsOnly v Q c :=
  fun s hs => ⟨(h v s hs).1, fun p hp => ((h v s hs).2 p hp).elim⟩

theorem silent_pure (a : α) : Silent (pure a : Conversion α) := fun _ => .pure a

theorem Silent.bind {c : Conversion α} {f : α → Conversion β} (hc : Silent c)
    (hf : ∀ a, Silent (f a)) : Silent (c >>= f) :=
  fun v => (hc v).bind fun a => hf a v

theorem silent_record (p : Problem) : Silent (record p) := by
  intro v s hs
  rw [run_record]
  refine ⟨?_, fun q hq => nomatch hq⟩
  split <;> exact hs

theorem isQuiet_silent {context : Context} : IsQuiet context @Silent where
  pure := silent_pure
  record p _ _ := silent_record p
  bind := Silent.bind

/-- A problem that is caught is none. -/
theorem silent_tryCatch {c : Conversion α} (hc : Steady c) (a : α) :
    Silent (tryCatch c fun _ => pure a) := by
  rintro v s rfl
  have hv := (hc s s rfl).2
  rw [run_tryCatch]
  rcases hr : run c s with ⟨r, t⟩
  rw [hr] at hv
  cases r with
  | ok b => exact ⟨hv, fun p hp => nomatch hp⟩
  | error p => exact ⟨hv, fun q hq => nomatch hq⟩

theorem silent_spaceOf? (context : Context) (scope : File) (type : SimpleType) :
    Silent (spaceOf? context scope type) :=
  silent_tryCatch (steady_map _
    (isClosed_steady.simpleShape context scope "" false type)) none

end Conversion

/-! ### Causes -/

/-- What a conversion can fail for. -/
inductive Linkage.Causes (l : Linkage) : Problem → Prop where
  /-- A name that a file mentions stands for nothing. -/
  | missing {file : File} {r : Reference} (referencing : String) : file ∈ l.catalog.files →
    r ∈ file.schema.references → l.resolve? r.kind file r.name = none →
      Causes l (.unresolvedName file.filename referencing r.name)
  /-- Another name stands for a type that has the name of a type of XML Schema itself, but there
  is no such type. -/
  | borrowed {file : File} {name : QName} {r : Resolved} (filename referencing : String) :
    l.resolve? .type file name = some r → name.isBuiltin = false → r.name.isBuiltin = true →
      Datatype.isKnown r.name.name = false → Causes l (.unresolvedName filename referencing r.name)
  /-- A declaration unfolds to itself. -/
  | cycle (filename : String) {kind : DeclarationKind} {q : QName} :
    l.Reaches (kind, q) (kind, q) → Causes l (.cycle filename q)

namespace Conversion

open Declarations

/-- The kind of the declarations that are expanded. -/
def Expandable.declares : Expandable → DeclarationKind
  | .simple => .type
  | .complex => .type
  | .group => .group
  | .attributeGroup => .attributeGroup

theorem Expandable.mem_set {kind other : Expandable} {v : Visited} {q n : QName}
    (h : n ∈ other.of (kind.set v (q :: kind.of v))) :
    (other = kind ∧ n = q) ∨ n ∈ other.of v := by
  cases kind <;> cases other <;> simp_all [Expandable.of, Expandable.set]

theorem Expandable.of_set (kind : Expandable) (v : Visited) (names : List QName) :
    kind.of (kind.set v names) = names := by
  cases kind <;> rfl

/-- Everything that a conversion is inside of reaches a declaration. -/
def Leads (l : Linkage) (v : Visited) (m : Mention) : Prop :=
  ∀ (kind : Expandable) (q : QName), q ∈ kind.of v → l.Reaches (kind.declares, q) m

/-- A conversion is inside of declarations of the batch, and of none twice. -/
structure Inside (l : Linkage) (v : Visited) : Prop where
  nodup : ∀ kind : Expandable, (kind.of v).Nodup
  declared : ∀ (kind : Expandable) (q : QName), q ∈ kind.of v →
    l.declarations.contains kind.declares q = true

/-- A component of a file can be converted as far as its names are concerned: one that stands for
nothing is one that a conversion fails for, and one that is expanded is what everything the
conversion is inside of leads to. -/
structure Ready (l : Linkage) (v : Visited) (scope : File) (refs : List Reference)
    (mentions : List Mention) : Prop where
  missing : ∀ r ∈ refs, l.resolve? r.kind scope r.name = none → ∀ referencing,
    l.Causes (.unresolvedName scope.filename referencing r.name)
  leads : ∀ m ∈ mentions, ∀ r, l.resolve? m.1 scope m.2 = some r → Leads l v (m.1, r.name)

section

variable {l : Linkage} {v : Visited} {kind : Expandable} {q : QName} {m : Mention}

theorem Leads.step (h : Leads l v m) {n : Mention} (hu : l.Unfolds m n) : Leads l v n :=
  fun kind q hq => (h kind q hq).tail hu

/-- What the conversion is inside of once it has entered a declaration leads to what this unfolds
to. -/
theorem Leads.enter (h : Leads l v (kind.declares, q)) (hu : l.Unfolds (kind.declares, q) m) :
    Leads l (kind.set v (q :: kind.of v)) m := by
  intro other n hn
  rcases Expandable.mem_set hn with ⟨rfl, rfl⟩ | hn
  · exact .single hu
  · exact h.step hu other n hn

theorem Inside.empty : Inside l {} :=
  ⟨fun kind => by cases kind <;> exact List.nodup_nil,
    fun kind _ hq => by cases kind <;> exact absurd hq List.not_mem_nil⟩

theorem Leads.empty : Leads l {} m :=
  fun kind _ hq => by cases kind <;> exact absurd hq List.not_mem_nil

theorem Inside.enter (h : Inside l v) (hq : l.declarations.contains kind.declares q = true)
    (hn : q ∉ kind.of v) : Inside l (kind.set v (q :: kind.of v)) := by
  refine ⟨fun other => ?_, fun other n hother => ?_⟩
  · by_cases hk : other = kind
    · subst hk
      rw [Expandable.of_set]
      exact List.nodup_cons.2 ⟨hn, h.nodup other⟩
    · have hsame : other.of (kind.set v (q :: kind.of v)) = other.of v := by
        cases kind <;> cases other <;> first | rfl | exact absurd rfl hk
      exact hsame ▸ h.nodup other
  · rcases Expandable.mem_set hother with ⟨rfl, rfl⟩ | hother
    · exact hq
    · exact h.declared other n hother

section

variable {most depth : Nat}

/-- A declaration that is entered has room, and leaves as much as is needed one deeper. -/
theorem fits_enter (kind : Expandable) (h : most ≤ depth + (kind.of v).length) :
    most + 1 ≤ depth + (kind.of (kind.set v (q :: kind.of v))).length := by
  rw [Expandable.of_set, List.length_cons]
  omega

/-- Types and model groups are counted together, for they may lie inside each other. -/
theorem fits_enter_content (hk : kind = .complex ∨ kind = .group)
    (h : most ≤ depth + v.complex.length + v.groups.length) :
    most + 1 ≤ depth + (kind.set v (q :: kind.of v)).complex.length +
      (kind.set v (q :: kind.of v)).groups.length := by
  rcases hk with rfl | rfl <;> simp only [Expandable.set, Expandable.of, List.length_cons] <;> omega

end

/-- A conversion is inside of at most as many declarations as there are. -/
theorem Inside.length_le {α : Type} (h : Inside l v) (kind : Expandable) (row : Row α)
    (hk : kind.declares = row.kind) :
    (kind.of v).length ≤ (row.table l.declarations).length := by
  have hsub : kind.of v ⊆ Table.keys (row.table l.declarations) := fun q hq => by
    have hc := h.declared kind q hq
    rw [hk, row.contains_table] at hc
    exact Table.contains_iff.1 hc
  have hlen := (List.subperm_of_subset (h.nodup kind) hsub).length_le
  rwa [Table.keys, List.length_map] at hlen

/-- A declaration is expanded: it is not one that the conversion is inside of, unless it unfolds to
itself. -/
theorem failsOnly_visiting {α : Type} (kind : Expandable) {scope : File} {c : Conversion α}
    (h : Inside l v)
    (hq : l.declarations.contains kind.declares q = true) (hl : Leads l v (kind.declares, q))
    (hc : q ∉ kind.of v → Inside l (kind.set v (q :: kind.of v)) →
      (∀ m, l.Unfolds (kind.declares, q) m → Leads l (kind.set v (q :: kind.of v)) m) →
        FailsOnly (kind.set v (q :: kind.of v)) l.Causes c) :
    FailsOnly v l.Causes (visiting kind scope q c) :=
  .visiting (fun hm => .cycle scope.filename (hl kind q hm)) fun hn =>
    hc hn (h.enter hq hn) fun _ hu => hl.enter hu

namespace Ready

variable {scope : File} {refs : List Reference} {mentions : List Mention}

theorem mono (h : Ready l v scope refs mentions) {refs' : List Reference}
    {mentions' : List Mention} (hr : ∀ r ∈ refs', r ∈ refs) (hm : ∀ m ∈ mentions', m ∈ mentions) :
    Ready l v scope refs' mentions' :=
  ⟨fun r hr' => h.missing r (hr r hr'), fun m hm' => h.leads m (hm m hm')⟩

theorem left {refs' : List Reference} {mentions' : List Mention}
    (h : Ready l v scope (refs ++ refs') (mentions ++ mentions')) : Ready l v scope refs mentions :=
  h.mono (fun _ => List.mem_append_left _) fun _ => List.mem_append_left _

theorem right {refs' : List Reference} {mentions' : List Mention}
    (h : Ready l v scope (refs ++ refs') (mentions ++ mentions')) :
    Ready l v scope refs' mentions' :=
  h.mono (fun _ => List.mem_append_right _) fun _ => List.mem_append_right _

/-- What a file mentions in a declaration that the conversion is about to look into. -/
theorem of_file (hf : scope ∈ l.catalog.files) (hr : ∀ r ∈ refs, r ∈ scope.schema.references)
    (hl : ∀ m ∈ mentions, ∀ r, l.resolve? m.1 scope m.2 = some r → Leads l v (m.1, r.name)) :
    Ready l v scope refs mentions :=
  ⟨fun r hm hn referencing => .missing referencing hf (hr r hm) hn, hl⟩

/-- A name that stands for nothing is not found. -/
theorem not_found {α : Type} (row : Row α) {name : QName} {location : String}
    (h : Ready l v scope refs mentions) (hr : ⟨row.kind, name, location⟩ ∈ refs)
    (hb : name.isBuiltin = false ∨ row.kind ≠ .type) (hl : l.lookup? row scope name = none)
    (referencing : String) : l.Causes (.unresolvedName scope.filename referencing name) :=
  h.missing _ hr (Linkage.resolve?_eq_none hl hb) referencing

/-- What is found under a name that is expanded is led to. -/
theorem leads_found {α : Type} {row : Row α} {name : QName} {located : Located α}
    (h : Ready l v scope refs mentions) (hlinked : l.IsLinked)
    (hm : (row.kind, name) ∈ mentions) (hl : l.lookup? row scope name = some located) :
    Leads l v (row.kind, row.name located.declaration) := by
  obtain ⟨-, -, r, hr, hn⟩ := hlinked.found hl
  exact hn ▸ h.leads _ hm r hr

end Ready

/-! ### The names in declarations -/

variable {file : File}

theorem mem_references_of_type {t : NamedType} (ht : t ∈ file.schema.types) {r : Reference}
    (hr : r ∈ t.definition.references ("type " ++ t.name.name)) : r ∈ file.schema.references := by
  simp only [Schema.references, List.mem_append, List.mem_flatMap]
  exact .inl (.inl (.inl (.inl ⟨t, ht, hr⟩)))

theorem mem_references_of_element {e : Element} (he : e ∈ file.schema.elements) {r : Reference}
    (hr : r ∈ e.references ("element " ++ e.name.name)) : r ∈ file.schema.references := by
  simp only [Schema.references, List.mem_append, List.mem_flatMap]
  exact .inl (.inl (.inl (.inr ⟨e, he, hr⟩)))

theorem mem_references_of_group {g : NamedGroup} (hg : g ∈ file.schema.groups) {r : Reference}
    (hr : r ∈ g.group.references ("group " ++ g.name.name)) : r ∈ file.schema.references := by
  simp only [Schema.references, List.mem_append, List.mem_flatMap]
  exact .inl (.inl (.inr ⟨g, hg, hr⟩))

theorem mem_references_of_attribute {a : Attribute} (ha : a ∈ file.schema.attributes)
    {r : Reference} (hr : r ∈ a.references ("attribute " ++ a.name.name)) :
    r ∈ file.schema.references := by
  simp only [Schema.references, List.mem_append, List.mem_flatMap]
  exact .inl (.inr ⟨a, ha, hr⟩)

theorem mem_references_of_attributeGroup {g : AttributeGroup}
    (hg : g ∈ file.schema.attributeGroups) {r : Reference}
    (hr : r ∈ usesReferences ("attributeGroup " ++ g.name.name) g.attributes) :
    r ∈ file.schema.references := by
  simp only [Schema.references, List.mem_append, List.mem_flatMap]
  exact .inr ⟨g, hg, hr⟩

/-- A type that the conversion has entered. -/
theorem Ready.of_type (hf : file ∈ l.catalog.files) {t : NamedType} (ht : t ∈ file.schema.types)
    (hl : ∀ m, l.Unfolds (.type, t.name) m → Leads l v m) :
    Ready l v file (t.definition.references ("type " ++ t.name.name)) t.definition.unfolded :=
  .of_file hf (fun _ => mem_references_of_type ht) fun _ hm _ hr =>
    hl _ (Linkage.unfolds_of_type hf ht hm hr)

theorem Ready.of_group (hf : file ∈ l.catalog.files) {g : NamedGroup}
    (hg : g ∈ file.schema.groups) (hl : ∀ m, l.Unfolds (.group, g.name) m → Leads l v m) :
    Ready l v file (g.group.references ("group " ++ g.name.name)) g.group.unfolded :=
  .of_file hf (fun _ => mem_references_of_group hg) fun _ hm _ hr =>
    hl _ (Linkage.unfolds_of_group hf hg hm hr)

theorem Ready.of_attributeGroup (hf : file ∈ l.catalog.files) {g : AttributeGroup}
    (hg : g ∈ file.schema.attributeGroups)
    (hl : ∀ m, l.Unfolds (.attributeGroup, g.name) m → Leads l v m) :
    Ready l v file (usesReferences ("attributeGroup " ++ g.name.name) g.attributes)
      (usesUnfolded g.attributes) :=
  .of_file hf (fun _ => mem_references_of_attributeGroup hg) fun _ hm _ hr =>
    hl _ (Linkage.unfolds_of_attributeGroup hf hg hm hr)

/-- An attribute is looked into without being entered. -/
theorem Ready.of_attribute (hf : file ∈ l.catalog.files) {a : Attribute}
    (ha : a ∈ file.schema.attributes) (hl : Leads l v (.attribute, a.name)) :
    Ready l v file (a.references ("attribute " ++ a.name.name)) a.unfolded :=
  .of_file hf (fun _ => mem_references_of_attribute ha) fun _ hm _ hr =>
    hl.step (Linkage.unfolds_of_attribute hf ha hm hr)

end

end Conversion

end Crosswalk
