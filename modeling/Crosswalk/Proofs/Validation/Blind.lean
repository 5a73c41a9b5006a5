import Crosswalk.Proofs.Validation.Alike

/-!
# Acceptance where links are followed everywhere alike

If what a link leads to is judged the same wherever the check stands, every schema either accepts or
rejects a value, and a keyword passes if and only if its schemas accept what they are asked about.
-/

namespace Crosswalk

open Json

namespace Check

variable {Home : Type} {follow : Follow Home} {home : Home} {value : Json}

/-- A link is judged the same wherever the check stands. -/
def IsBlind (follow : Follow Home) : Prop :=
  ∀ (home : Home) (link : String) (value : Json) (p q : Position),
    follow home link value p = [] → follow home link value q = []

/-- The schema accepts the same values here as the other one there. -/
def AcceptsSame (follow : Follow Home) (home home' : Home) (schema schema' : Json) : Prop :=
  ∀ value, Accepts follow home value schema ↔ Accepts follow home' value schema'

/-- Links in this document are judged as the schemas are that they lead to. -/
structure Judges (lead : Home → String → Option (Home × Json)) (follow : Follow Home)
    (home : Home) : Prop where
  blind : IsBlind follow
  leads : ∀ {link : String} {target : Home × Json}, lead home link = some target →
    AcceptsSame follow home target.1 (Link.schema link) target.2

/-- A schema without links accepts the same values in all documents. -/
theorem acceptsSame_of_links {schema : Json} (h : ∀ P, LinksSatisfy P schema)
    (home home' : Home) : AcceptsSame follow home home' schema schema :=
  fun value => forall_congr' fun p => check_alike (h _) (alike_refl schema) value p p

namespace AcceptsSame

variable {home' home'' : Home} {a b c : Json}

theorem refl (home : Home) (a : Json) : AcceptsSame follow home home a a := fun _ => Iff.rfl

theorem symm (h : AcceptsSame follow home home' a b) : AcceptsSame follow home' home b a :=
  fun value => (h value).symm

theorem trans (h : AcceptsSame follow home home' a b)
    (h' : AcceptsSame follow home' home'' b c) : AcceptsSame follow home home'' a c :=
  fun value => (h value).trans (h' value)

end AcceptsSame

section

variable (hb : IsBlind follow)
include hb

theorem IsBlind.followsAlike (link : String) : FollowsAlike follow home follow home link :=
  fun value p q => ⟨hb home link value p q, hb home link value q p⟩

theorem IsBlind.check_alike {a b : Json} (h : a.alike b = true) (p q : Position) :
    check follow home p value a = [] ↔ check follow home q value b = [] :=
  Check.check_alike (linksSatisfy_of_forall hb.followsAlike a) h value p q

theorem IsBlind.accepts_iff (p : Position) (schema : Json) :
    Accepts follow home value schema ↔ check follow home p value schema = [] :=
  ⟨fun h => h p, fun h q => (hb.check_alike (alike_refl schema) q p).2 h⟩

theorem IsBlind.acceptsSame_of_alike {a b : Json} (h : a.alike b = true) :
    AcceptsSame follow home home a b := by
  intro value
  rw [hb.accepts_iff {} a, hb.accepts_iff {} b]
  exact hb.check_alike h {} {}

end

/-- A schema is accepted if and only if all of its keywords pass. -/
theorem accepts_object_iff {fields : Table String Json} (h : reference? fields = none) :
    Accepts follow home value (.object fields) ↔
      ∀ member ∈ fields, Passes follow home value fields member :=
  ⟨fun ha _ hm => ha.passes h hm, accepts_object h⟩

/-! ### Keywords -/

theorem Complains.passes_iff {whole : Table String Json} {keyword : String} {bound : Json}
    (hk : Complains keyword) :
    Passes follow home value whole (keyword, bound) ↔ complaints keyword bound value = [] := by
  refine ⟨fun h => ?_, passes_of_complaints fun p => hk follow home p value whole bound⟩
  have hnil := h {} _ (by rw [hk]; exact List.mem_singleton.2 rfl)
  exact List.map_eq_nil_iff.1 hnil

theorem passes_required_iff {whole : Table String Json} {entries : Table String Json}
    {names : List String} :
    Passes follow home (.object entries) whole ("required", .strings names) ↔
      ∀ name ∈ names, Table.contains entries name = true :=
  (Complains.passes_iff fun _ _ _ _ _ _ => rfl).trans complaints_required

theorem passes_object_iff {whole : Table String Json} :
    Passes follow home value whole ("type", .string "object") ↔
      ∃ entries, value = .object entries := by
  refine (Complains.passes_iff fun _ _ _ _ _ _ => rfl).trans ?_
  cases value <;> simp [complaints, typesOf, hasType, complaintUnless]

theorem passes_array_iff {whole : Table String Json} :
    Passes follow home value whole ("type", .string "array") ↔ ∃ items, value = .array items := by
  refine (Complains.passes_iff fun _ _ _ _ _ _ => rfl).trans ?_
  cases value <;> simp [complaints, typesOf, hasType, complaintUnless]

theorem passes_closed_iff {whole : Table String Json} {entries : Table String Json} :
    Passes follow home (.object entries) whole ("additionalProperties", .bool false) ↔
      ∀ name, Table.contains entries name = true → name ∈ (declared whole).getD [] := by
  refine ⟨fun h name hc => ?_, passes_closed⟩
  by_contra hn
  have hrefusal : refusal whole (({} : Position).under "additionalProperties") (.object entries) =
      [] := h {} _ (List.mem_singleton.2 rfl)
  obtain ⟨entry, he, rfl⟩ := List.mem_map.1 (Table.contains_iff.1 hc)
  have hmem : entry ∈ additional whole (.object entries) :=
    List.mem_filter.2 ⟨he, by simpa using hn⟩
  unfold refusal at hrefusal
  split at hrefusal
  · next hnil => exact absurd (hnil ▸ hmem) List.not_mem_nil
  · exact nomatch hrefusal
  · exact nomatch hrefusal

theorem passes_iff_check {whole : Table String Json} {keyword : String} {bound : Json}
    {result : Position → List Violation}
    (hk : ∀ p, checkKeywords follow home p value whole [(keyword, bound)] = [(keyword, result p)]) :
    Passes follow home value whole (keyword, bound) ↔ ∀ p, result p = [] := by
  refine forall_congr' fun p => ?_
  rw [hk, List.forall_mem_singleton]

section

variable (hb : IsBlind follow) {whole : Table String Json}
include hb

theorem checkEntries_eq_nil {p : Position} {entries : Table String Json}
    {properties : List (String × Json)} :
    checkEntries follow home p (.object entries) properties = [] ↔
      ∀ property ∈ properties, ∀ inner, Table.find? entries property.1 = some inner →
        Accepts follow home inner property.2 := by
  induction properties with
  | nil => simp [checkEntries]
  | cons property rest ih =>
      rw [checkEntries, List.append_eq_nil_iff, ih, List.forall_mem_cons, field?_object]
      refine and_congr_left' ?_
      cases Table.find? entries property.1 with
      | none => simp
      | some inner => simpa using (hb.accepts_iff _ property.2).symm

theorem passes_properties_iff {entries : Table String Json} {properties : Table String Json} :
    Passes follow home (.object entries) whole ("properties", .object properties) ↔
      ∀ property ∈ properties, ∀ inner, Table.find? entries property.1 = some inner →
        Accepts follow home inner property.2 := by
  refine (passes_iff_check fun _ => rfl).trans ?_
  simp only [checkProperties, checkEntries_eq_nil hb]
  exact ⟨fun h => h {}, fun h _ => h⟩

theorem passes_items_iff {items : List Json} {schema : Json} :
    Passes follow home (.array items) whole ("items", schema) ↔
      ∀ item ∈ items, Accepts follow home item schema := by
  refine (passes_iff_check fun _ => rfl).trans ?_
  simp only [List.flatMap_eq_nil_iff]
  constructor
  · intro h item hi
    obtain ⟨i, hi', rfl⟩ := List.mem_iff_getElem.1 hi
    exact (hb.accepts_iff _ schema).2
      (h {} (items[i], i) (List.mem_zipIdx_iff_getElem?.2 (by simp [hi'])))
  · intro h p entry he
    exact h entry.1 (List.fst_mem_of_mem_zipIdx he) _

theorem checkEach_eq_nil {p : Position} {i : Nat} {schemas : List Json} :
    (∀ result ∈ checkEach follow home p value i schemas, result = []) ↔
      ∀ schema ∈ schemas, Accepts follow home value schema := by
  induction schemas generalizing i with
  | nil => simp [checkEach]
  | cons schema rest ih =>
      rw [checkEach, List.forall_mem_cons, List.forall_mem_cons, ih, hb.accepts_iff]

theorem passes_allOf_iff {schemas : List Json} :
    Passes follow home value whole ("allOf", .array schemas) ↔
      ∀ schema ∈ schemas, Accepts follow home value schema := by
  refine (passes_iff_check fun _ => rfl).trans ?_
  simp only [checkMembers, List.flatten_eq_nil_iff, checkEach_eq_nil hb]
  exact ⟨fun h => h {}, fun h _ => h⟩

theorem passes_anyOf_iff {schemas : List Json} :
    Passes follow home value whole ("anyOf", .array schemas) ↔
      ∃ schema ∈ schemas, Accepts follow home value schema := by
  constructor
  · intro h
    by_contra hn
    have hrejects : ∀ schema ∈ schemas, Rejects follow home value schema := fun schema hs p hp =>
      hn ⟨schema, hs, (hb.accepts_iff p schema).2 hp⟩
    obtain ⟨entry, he, hne⟩ := (fails_alternatives (.inl rfl) hrejects : Fails _ _ _ whole _) {}
    exact hne (h {} entry he)
  · rintro ⟨schema, hs, ha⟩
    exact passes_anyOf hs ha

end

end Check

end Crosswalk
