import Crosswalk.Proofs.Table
import Crosswalk.Validation.Check

/-!
# Acceptance and refusal

A check lists violations, each with its position. What matters of them here is whether there are
any. `Accepts` and `Rejects` say that there are none, or some, wherever the check stands: of a
schema that refers to another document neither need hold, for how references are followed is open.
For each keyword there is one lemma that says when a member of a schema passes, and one that says
when it fails.
-/

namespace Crosswalk

namespace Check

variable {Home : Type} {follow : Follow Home} {home : Home} {value : Json}

/-- The value has no violations under the schema. -/
def Accepts (follow : Follow Home) (home : Home) (value schema : Json) : Prop :=
  ∀ p, check follow home p value schema = []

/-- The value has violations under the schema. -/
def Rejects (follow : Follow Home) (home : Home) (value schema : Json) : Prop :=
  ∀ p, check follow home p value schema ≠ []

/-- The value has no violations of one keyword of a schema. -/
def Passes (follow : Follow Home) (home : Home) (value : Json) (whole : Table String Json)
    (member : String × Json) : Prop :=
  ∀ p, ∀ entry ∈ checkKeywords follow home p value whole [member], entry.2 = []

/-- The value has violations of one keyword of a schema. -/
def Fails (follow : Follow Home) (home : Home) (value : Json) (whole : Table String Json)
    (member : String × Json) : Prop :=
  ∀ p, ∃ entry ∈ checkKeywords follow home p value whole [member], entry.2 ≠ []

theorem arrange_eq_nil {fields : Table String Json} {results : List (String × List Violation)} :
    arrange fields results = [] ↔ ∀ entry ∈ results, entry.2 = [] := by
  unfold arrange
  split
  · simp [List.flatMap_eq_nil_iff]
  · simp [List.flatMap_eq_nil_iff]
  · simp only [List.partition_eq_filter_filter, List.flatMap_eq_nil_iff, List.mem_append,
      List.mem_filter]
    constructor
    · intro h entry he
      by_cases hk : (entry.1 == "properties") = true
      · exact h entry (.inl ⟨he, hk⟩)
      · exact h entry (.inr ⟨he, by simpa using hk⟩)
    · exact fun h entry he => he.elim (fun he => h entry he.1) fun he => h entry he.1

theorem checkKeywords_cons (p : Position) (whole : Table String Json) (member : String × Json)
    (rest : List (String × Json)) :
    checkKeywords follow home p value whole (member :: rest) =
      checkKeywords follow home p value whole [member] ++
        checkKeywords follow home p value whole rest := rfl

theorem mem_checkKeywords {p : Position} {whole : Table String Json}
    {members : List (String × Json)} {entry : String × List Violation} :
    entry ∈ checkKeywords follow home p value whole members ↔
      ∃ member ∈ members, entry ∈ checkKeywords follow home p value whole [member] := by
  induction members with
  | nil => simp [checkKeywords]
  | cons member rest ih =>
      rw [checkKeywords_cons, List.mem_append, ih]
      simp

theorem check_object {fields : Table String Json} (h : reference? fields = none) (p : Position) :
    check follow home p value (.object fields) =
      arrange fields (checkKeywords follow home p value fields fields) := by
  rw [check, h]

/-- A schema is accepted if all of its keywords pass. -/
theorem accepts_object {fields : Table String Json} (h : reference? fields = none)
    (hm : ∀ member ∈ fields, Passes follow home value fields member) :
    Accepts follow home value (.object fields) := by
  intro p
  rw [check_object h, arrange_eq_nil]
  intro entry he
  obtain ⟨member, hmem, he⟩ := mem_checkKeywords.1 he
  exact hm member hmem p entry he

/-- A schema is refused if one of its keywords fails. -/
theorem rejects_object {fields : Table String Json} (h : reference? fields = none)
    {member : String × Json} (hmem : member ∈ fields)
    (hf : Fails follow home value fields member) : Rejects follow home value (.object fields) := by
  intro p hp
  rw [check_object h, arrange_eq_nil] at hp
  obtain ⟨entry, he, hne⟩ := hf p
  exact hne (hp entry (mem_checkKeywords.2 ⟨member, hmem, he⟩))

/-! ### Keywords -/

section

variable {whole : Table String Json}

theorem passes_of_complaints {keyword : String} {bound : Json}
    (hk : ∀ p, checkKeywords follow home p value whole [(keyword, bound)] =
      [(keyword, (complaints keyword bound value).map (p.under keyword).violation)])
    (h : complaints keyword bound value = []) :
    Passes follow home value whole (keyword, bound) := by
  intro p entry he
  rw [hk, h] at he
  exact List.mem_singleton.1 he ▸ rfl

theorem passes_type {entries : Table String Json} :
    Passes follow home (.object entries) whole ("type", .string "object") := by
  exact passes_of_complaints (fun p => rfl) rfl

theorem complaints_required {entries : Table String Json} {names : List String} :
    complaints "required" (.strings names) (.object entries) = [] ↔
      ∀ name ∈ names, Table.contains entries name = true := by
  have hnames : (names.map Json.string).filterMap Json.string? = names := by
    simp [List.filterMap_map, Function.comp_def, Json.string?]
  have hcomplaints : complaints "required" (.strings names) (.object entries) =
      ((names.map Json.string).filterMap Json.string?).flatMap fun name =>
        complaintUnless (Table.contains entries name) (.missing name) := rfl
  simp only [hcomplaints, hnames, List.flatMap_eq_nil_iff]
  refine forall₂_congr fun name _ => ?_
  unfold complaintUnless
  split <;> simp_all

theorem passes_required {entries : Table String Json} {names : List String}
    (h : ∀ name ∈ names, Table.contains entries name = true) :
    Passes follow home (.object entries) whole ("required", .strings names) :=
  passes_of_complaints (fun _ => rfl) (complaints_required.2 h)

theorem fails_required {entries : Table String Json} {names : List String} {name : String}
    (hn : name ∈ names) (h : Table.contains entries name = false) :
    Fails follow home (.object entries) whole ("required", .strings names) := by
  intro p
  refine ⟨_, List.mem_singleton.2 rfl, fun hnil => ?_⟩
  have hall := complaints_required.1 (List.map_eq_nil_iff.1 hnil)
  exact Bool.false_ne_true (h.symm.trans (hall name hn))

theorem passes_not {schema : Json} (h : Rejects follow home value schema) :
    Passes follow home value whole ("not", schema) := by
  intro p entry he
  obtain rfl := List.mem_singleton.1 he
  change (if (check follow home (p.under "not") value schema).isEmpty then _ else []) = []
  rw [if_neg]
  exact fun hnil => h _ (List.isEmpty_iff.1 hnil)

theorem fails_not {schema : Json} (h : Accepts follow home value schema) :
    Fails follow home value whole ("not", schema) := by
  intro p
  refine ⟨_, List.mem_singleton.2 rfl, ?_⟩
  change (if (check follow home (p.under "not") value schema).isEmpty then _ else []) ≠ []
  rw [if_pos (List.isEmpty_iff.2 (h _))]
  simp

theorem checkEach_append (p : Position) (first rest : List Json) : ∀ i : Nat,
    checkEach follow home p value i (first ++ rest) =
      checkEach follow home p value i first ++
        checkEach follow home p value (i + first.length) rest := by
  induction first with
  | nil => simp [checkEach]
  | cons schema first ih =>
      intro i
      rw [List.cons_append, checkEach, checkEach, ih, List.length_cons, List.cons_append,
        Nat.add_assoc, Nat.add_comm 1]

theorem checkEach_accepts {schemas : List Json}
    (h : ∀ schema ∈ schemas, Accepts follow home value schema) (p : Position) : ∀ i : Nat,
    ∀ result ∈ checkEach follow home p value i schemas, result = [] := by
  induction schemas with
  | nil => simp [checkEach]
  | cons schema rest ih =>
      rw [List.forall_mem_cons] at h
      intro i
      rw [checkEach, List.forall_mem_cons]
      exact ⟨h.1 _, ih h.2 (i + 1)⟩

theorem checkEach_rejects {schemas : List Json}
    (h : ∀ schema ∈ schemas, Rejects follow home value schema) (p : Position) : ∀ i : Nat,
    ∀ result ∈ checkEach follow home p value i schemas, result ≠ [] := by
  induction schemas with
  | nil => simp [checkEach]
  | cons schema rest ih =>
      rw [List.forall_mem_cons] at h
      intro i
      rw [checkEach, List.forall_mem_cons]
      exact ⟨h.1 _, ih h.2 (i + 1)⟩

theorem filter_checkEach_of_rejects {schemas : List Json}
    (h : ∀ schema ∈ schemas, Rejects follow home value schema) (p : Position) (i : Nat) :
    (checkEach follow home p value i schemas).filter List.isEmpty = [] :=
  List.filter_eq_nil_iff.2 fun result hr hnil =>
    checkEach_rejects h p i result hr (List.isEmpty_iff.1 hnil)

theorem passes_allOf {schemas : List Json}
    (h : ∀ schema ∈ schemas, Accepts follow home value schema) :
    Passes follow home value whole ("allOf", .array schemas) := by
  intro p entry he
  obtain rfl := List.mem_singleton.1 he
  exact List.flatten_eq_nil_iff.2 (checkEach_accepts h (p.under "allOf") 0)

theorem fails_allOf (whole : Table String Json) {schemas : List Json} {schema : Json}
    (hs : schema ∈ schemas)
    (h : Rejects follow home value schema) :
    Fails follow home value whole ("allOf", .array schemas) := by
  intro p
  refine ⟨_, List.mem_singleton.2 rfl, fun hnil => ?_⟩
  obtain ⟨first, rest, rfl⟩ := List.append_of_mem hs
  have hall := List.flatten_eq_nil_iff.1 hnil
  refine h ((p.under "allOf").under (toString (0 + first.length))) (hall _ ?_)
  change _ ∈ checkEach follow home (p.under "allOf") value 0 (first ++ schema :: rest)
  rw [checkEach_append, checkEach]
  exact List.mem_append_right _ List.mem_cons_self

/-- The keyword of alternatives, given how many of them are satisfied. -/
theorem checkKeywords_alternatives {keyword : String} (hk : keyword = "anyOf" ∨ keyword = "oneOf")
    (p : Position) (schemas : List Json) :
    checkKeywords follow home p value whole [(keyword, .array schemas)] =
      [(keyword, alternatives keyword (p.under keyword) value
        (checkEach follow home (p.under keyword) value 0 schemas))] := by
  rcases hk with rfl | rfl <;> rfl

theorem fails_alternatives {keyword : String} (hk : keyword = "anyOf" ∨ keyword = "oneOf")
    {schemas : List Json} (h : ∀ schema ∈ schemas, Rejects follow home value schema) :
    Fails follow home value whole (keyword, .array schemas) := by
  intro p
  rw [checkKeywords_alternatives hk]
  refine ⟨_, List.mem_singleton.2 rfl, ?_⟩
  simp [alternatives, filter_checkEach_of_rejects h]

theorem passes_anyOf {schemas : List Json} {schema : Json} (hs : schema ∈ schemas)
    (h : Accepts follow home value schema) :
    Passes follow home value whole ("anyOf", .array schemas) := by
  intro p entry he
  rw [checkKeywords_alternatives (.inl rfl)] at he
  obtain rfl := List.mem_singleton.1 he
  obtain ⟨first, rest, rfl⟩ := List.append_of_mem hs
  have hmem : [] ∈ (checkEach follow home (p.under "anyOf") value 0
      (first ++ schema :: rest)).filter List.isEmpty := by
    rw [checkEach_append, checkEach, h]
    simp
  dsimp only [alternatives]
  split
  · next hzero => exact absurd (List.length_eq_zero_iff.1 hzero ▸ hmem) List.not_mem_nil
  · rfl
  · simp

theorem passes_oneOf {first rest : List Json} {schema : Json}
    (hf : ∀ other ∈ first, Rejects follow home value other)
    (h : Accepts follow home value schema)
    (hr : ∀ other ∈ rest, Rejects follow home value other) :
    Passes follow home value whole ("oneOf", .array (first ++ schema :: rest)) := by
  intro p entry he
  rw [checkKeywords_alternatives (.inr rfl)] at he
  obtain rfl := List.mem_singleton.1 he
  have hone : ((checkEach follow home (p.under "oneOf") value 0
      (first ++ schema :: rest)).filter List.isEmpty).length = 1 := by
    rw [checkEach_append, checkEach, List.filter_append, List.filter_cons, h,
      filter_checkEach_of_rejects hf, filter_checkEach_of_rejects hr]
    rfl
  simp [alternatives, hone]

/-- The keywords of alternatives do not look at the keywords beside them. -/
theorem passes_alternatives_congr {keyword : String} (hk : keyword = "anyOf" ∨ keyword = "oneOf")
    {schemas : List Json} (whole' : Table String Json)
    (h : Passes follow home value whole (keyword, .array schemas)) :
    Passes follow home value whole' (keyword, .array schemas) := by
  intro p
  have := h p
  rw [checkKeywords_alternatives hk] at this ⊢
  exact this

/-- No properties are refused if the schema declares all that there are. -/
theorem passes_closed {entries : Table String Json}
    (h : ∀ name, Table.contains entries name = true → name ∈ (declared whole).getD []) :
    Passes follow home (.object entries) whole ("additionalProperties", .bool false) := by
  have hnone : additional whole (.object entries) = [] := by
    refine List.filter_eq_nil_iff.2 fun e he => ?_
    have hmem := h e.1 (Table.contains_iff.2 (List.mem_map.2 ⟨e, he, rfl⟩))
    simp [hmem]
  intro p entry he
  obtain rfl := List.mem_singleton.1 he
  change refusal whole (p.under "additionalProperties") (.object entries) = []
  simp [refusal, hnone]

theorem passes_array {items : List Json} :
    Passes follow home (.array items) whole ("type", .string "array") :=
  passes_of_complaints (fun _ => rfl) rfl

theorem passes_minItems {items : List Json} {least : Nat} (h : least ≤ items.length) :
    Passes follow home (.array items) whole ("minItems", .nat least) := by
  refine passes_of_complaints (fun _ => rfl) ?_
  change complaintUnless (decide (Int.toNat least ≤ items.length)) _ = []
  simp [complaintUnless, h]

theorem passes_maxItems {items : List Json} {most : Nat} (h : items.length ≤ most) :
    Passes follow home (.array items) whole ("maxItems", .nat most) := by
  refine passes_of_complaints (fun _ => rfl) ?_
  change complaintUnless (decide (items.length ≤ Int.toNat most)) _ = []
  simp [complaintUnless, h]

/-! ### Keywords of a schema -/

/-- The keywords of a schema pass that a value is accepted by. -/
theorem Accepts.passes {fields : Table String Json} (h : Accepts follow home value (.object fields))
    (hr : reference? fields = none) {member : String × Json} (hm : member ∈ fields) :
    Passes follow home value fields member := by
  intro p entry he
  have hp := h p
  rw [check_object hr, arrange_eq_nil] at hp
  exact hp entry (mem_checkKeywords.2 ⟨member, hm, he⟩)

/-- The value passes all keywords of a schema but one, which is left open. -/
def AcceptsBut (keyword : String) (follow : Follow Home) (home : Home) (value schema : Json) :
    Prop :=
  ∃ fields, schema = .object fields ∧ reference? fields = none ∧
    ∀ member ∈ fields, member.1 ≠ keyword → Passes follow home value fields member

end

end Check

end Crosswalk
