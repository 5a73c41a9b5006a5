import Crosswalk.Conversion.Shape
import Crosswalk.Proofs.Validation.Check

/-!
# The constraint of a choice

The constraint of a choice looks at nothing but which members an object has. If the members are
those of one branch, with all that the branch requires, or none where the choice can be left out or
left empty, the constraint is met: exactly one of its alternatives holds if the branches have no
name in common, and at least one otherwise. If the object has members of two exclusive branches, it
is not.
-/

namespace Crosswalk

open Check

/-- An object with these members satisfies a constraint, whatever references lead to. -/
def Met (entries : Table String Json) (constraint : Json) : Prop :=
  ∀ (Home : Type) (follow : Follow Home) (home : Home),
    Accepts follow home (.object entries) constraint

/-- An object with these members violates a constraint, whatever references lead to. -/
def Unmet (entries : Table String Json) (constraint : Json) : Prop :=
  ∀ (Home : Type) (follow : Follow Home) (home : Home),
    Rejects follow home (.object entries) constraint

theorem Met.not_unmet {entries : Table String Json} {constraint : Json}
    (h : Met entries constraint) : ¬ Unmet entries constraint :=
  fun hu => hu Unit (fun _ _ _ _ => []) () {} (h Unit (fun _ _ _ _ => []) () {})

namespace Shape

variable {entries : Table String Json}

/-- A member of one of these names is there. -/
def Present (entries : Table String Json) (names : List String) : Prop :=
  ∃ name ∈ names, Table.contains entries name = true

theorem met_presence {name : String} (h : Table.contains entries name = true) :
    Met entries (.object [("required", .strings [name])]) := by
  intro Home follow home
  refine accepts_object rfl fun member hm => ?_
  obtain rfl := List.mem_singleton.1 hm
  exact passes_required fun n hn => List.mem_singleton.1 hn ▸ h

theorem unmet_presence {name : String} (h : Table.contains entries name = false) :
    Unmet entries (.object [("required", .strings [name])]) := by
  intro Home follow home
  exact rejects_object rfl List.mem_cons_self (fails_required List.mem_cons_self h)

theorem passes_presence {Home : Type} (follow : Follow Home) (home : Home)
    (whole : Table String Json) {names : List String} (h : Present entries names) :
    Passes follow home (.object entries) whole ("anyOf", .array (presence names)) := by
  obtain ⟨name, hn, hc⟩ := h
  exact passes_anyOf (List.mem_map.2 ⟨name, hn, rfl⟩) (met_presence hc _ follow home)

theorem fails_presence {Home : Type} (follow : Follow Home) (home : Home)
    (whole : Table String Json) {names : List String} (h : ¬ Present entries names) :
    Fails follow home (.object entries) whole ("anyOf", .array (presence names)) := by
  refine fails_alternatives (.inl rfl) fun schema hs => ?_
  obtain ⟨name, hn, rfl⟩ := List.mem_map.1 hs
  exact unmet_presence (Bool.eq_false_iff.2 fun hc => h ⟨name, hn, hc⟩) _ follow home

theorem met_absence {names : List String} (h : Present entries names) :
    Met entries (absence names) := by
  intro Home follow home
  refine accepts_object rfl fun member hm => ?_
  obtain rfl := List.mem_singleton.1 hm
  exact passes_presence follow home _ h

theorem unmet_absence {names : List String} (h : ¬ Present entries names) :
    Unmet entries (absence names) := by
  intro Home follow home
  exact rejects_object rfl List.mem_cons_self (fails_presence follow home _ h)

/-- The alternative of a choice without members. -/
theorem met_none {names : List String} (h : ¬ Present entries names) :
    Met entries (.object [("not", absence names)]) := by
  intro Home follow home
  refine accepts_object rfl fun member hm => ?_
  obtain rfl := List.mem_singleton.1 hm
  exact passes_not (unmet_absence h _ follow home)

theorem unmet_none {names : List String} (h : Present entries names) :
    Unmet entries (.object [("not", absence names)]) := by
  intro Home follow home
  exact rejects_object rfl List.mem_cons_self (fails_not (met_absence h _ follow home))

/-! ### Alternatives -/

/-- The keywords of an alternative. -/
def alternativeFields (branch : Shape) (all : List String) (exclusive : Bool) :
    List (String × Json) :=
  let required := branch.requiredNames
  let others := all.filter fun name => !branch.names.contains name
  (if !required.isEmpty then [("required", .strings required)]
    else if !branch.names.isEmpty then [("anyOf", .array (presence branch.names))]
    else []) ++
  (if exclusive && !others.isEmpty then [("not", absence others)] else []) ++
  (if branch.choices.isEmpty then [] else [("allOf", .array branch.choices)])

variable {branch : Shape} {all : List String} {exclusive : Bool}

theorem nodup_alternativeFields :
    ((branch.alternativeFields all exclusive).map (·.1)).Nodup := by
  unfold alternativeFields
  dsimp only
  split_ifs <;> simp

theorem reference?_alternativeFields :
    reference? (Table.ofList (branch.alternativeFields all exclusive)) = none := by
  rw [reference?, Table.find?_ofList_eq_none]
  · rfl
  · unfold alternativeFields
    dsimp only
    split_ifs <;> simp

/-- What is asked of an object for it to be content of a branch. -/
structure Chosen (entries : Table String Json) (branch : Shape) (all : List String)
    (exclusive : Bool) : Prop where
  required : ∀ name ∈ branch.requiredNames, Table.contains entries name = true
  inhabited : Present entries branch.names
  others : exclusive = true → ∀ name ∈ all, Table.contains entries name = true →
    name ∈ branch.names
  choices : ∀ choice ∈ branch.choices, Met entries choice

theorem met_alternative (h : Chosen entries branch all exclusive) :
    Met entries (branch.alternative all exclusive) := by
  intro Home follow home
  refine accepts_object reference?_alternativeFields fun member hm => ?_
  have hmem := Table.mem_ofList hm
  simp only [List.mem_append] at hmem
  rcases hmem with (hmem | hmem) | hmem
  · split_ifs at hmem
    · obtain rfl := List.mem_singleton.1 hmem
      exact passes_required h.required
    · obtain rfl := List.mem_singleton.1 hmem
      exact passes_presence follow home _ h.inhabited
    · exact absurd hmem List.not_mem_nil
  · split_ifs at hmem with hx
    · obtain rfl := List.mem_singleton.1 hmem
      refine passes_not (unmet_absence ?_ _ follow home)
      rintro ⟨name, hn, hc⟩
      rw [Bool.and_eq_true] at hx
      obtain ⟨hall, hnot⟩ := List.mem_filter.1 hn
      simp [h.others hx.1 name hall hc] at hnot
    · exact absurd hmem List.not_mem_nil
  · split_ifs at hmem
    · exact absurd hmem List.not_mem_nil
    · obtain rfl := List.mem_singleton.1 hmem
      exact passes_allOf fun choice hc => h.choices choice hc _ follow home

theorem unmet_alternative_of_mem (member : String × Json)
    (hmem : member ∈ branch.alternativeFields all exclusive)
    (hf : ∀ {Home : Type} (follow : Follow Home) (home : Home) (whole : Table String Json),
      Fails follow home (.object entries) whole member) :
    Unmet entries (branch.alternative all exclusive) := by
  intro Home follow home
  exact rejects_object reference?_alternativeFields
    (Table.mem_ofList_of_mem nodup_alternativeFields hmem) (hf follow home _)

theorem requiredNames_subset {s : Shape} {name : String} (h : name ∈ s.requiredNames) :
    name ∈ s.names := by
  obtain ⟨entry, he, rfl⟩ := List.mem_map.1 h
  exact List.mem_map.2 ⟨entry, (List.mem_filter.1 he).1, rfl⟩

/-- An alternative is refused if a member that it requires is not there. -/
theorem unmet_alternative_of_required {name : String} (hn : name ∈ branch.requiredNames)
    (h : Table.contains entries name = false) :
    Unmet entries (branch.alternative all exclusive) := by
  refine unmet_alternative_of_mem ("required", .strings branch.requiredNames) ?_
    fun follow home whole => fails_required hn h
  have hne : branch.requiredNames ≠ [] := List.ne_nil_of_mem hn
  simp [alternativeFields, hne]

/-- An alternative is refused if the object has none of its members. -/
theorem unmet_alternative_of_absent (hn : branch.names ≠ [])
    (h : ¬ Present entries branch.names) :
    Unmet entries (branch.alternative all exclusive) := by
  have hnames : (!branch.names.isEmpty) = true := by simp [hn]
  by_cases hr : branch.requiredNames = []
  · refine unmet_alternative_of_mem ("anyOf", .array (presence branch.names)) ?_
      fun follow home whole => fails_presence follow home whole h
    simp [alternativeFields, hr, hnames]
  · obtain ⟨name, rest, hrequired⟩ := List.exists_cons_of_ne_nil hr
    have hname : name ∈ branch.requiredNames := hrequired ▸ List.mem_cons_self
    exact unmet_alternative_of_required hname
      (Bool.eq_false_iff.2 fun hc => h ⟨name, requiredNames_subset hname, hc⟩)

/-- An exclusive alternative is refused if the object has a member of another branch. -/
theorem unmet_alternative_of_other {name : String} (ha : name ∈ all) (hb : name ∉ branch.names)
    (hc : Table.contains entries name = true) :
    Unmet entries (branch.alternative all true) := by
  have hother : name ∈ all.filter fun name => !branch.names.contains name :=
    List.mem_filter.2 ⟨ha, by simpa using hb⟩
  refine unmet_alternative_of_mem ("not", absence _) ?_
    fun follow home whole => fails_not (met_absence ⟨name, hother, hc⟩ _ follow home)
  have hne : (all.filter fun name => !branch.names.contains name).isEmpty = false := by
    rw [List.isEmpty_eq_false_iff]
    exact List.ne_nil_of_mem hother
  simp only [alternativeFields, Bool.true_and, hne, Bool.not_false, if_true]
  simp

/-- An alternative is refused if a choice within it is not met. -/
theorem unmet_alternative_of_choice {choice : Json} (hc : choice ∈ branch.choices)
    (h : Unmet entries choice) : Unmet entries (branch.alternative all exclusive) := by
  refine unmet_alternative_of_mem ("allOf", .array branch.choices) ?_
    fun follow home whole => fails_allOf whole hc (h _ follow home)
  have hne : branch.choices ≠ [] := List.ne_nil_of_mem hc
  simp [alternativeFields, hne]

/-! ### Choices -/

theorem overlap_eq_false {branches : List Shape} :
    overlap branches = false ↔
      branches.Pairwise fun b c => ∀ name ∈ b.names, name ∉ c.names := by
  induction branches with
  | nil => simp [overlap]
  | cons branch rest ih =>
      rw [overlap, Bool.or_eq_false_iff, ih, List.pairwise_cons]
      refine and_congr_left' ?_
      simp only [List.any_eq_false, List.any_eq_true, List.contains_iff_mem, not_exists, not_and]
      exact ⟨fun h c hc n hn => h n hn c hc, fun h n hn c hc => h c hc n hn⟩

/-- The branches that a choice has alternatives for. -/
def inhabited (branches : List Shape) : List Shape := branches.filter fun b => !b.names.isEmpty

theorem mem_inhabited {branches : List Shape} {branch : Shape} :
    branch ∈ inhabited branches ↔ branch ∈ branches ∧ branch.names ≠ [] := by
  simp [inhabited, List.mem_filter]

/-- Whether an object may do without any member of the choice. -/
def emptiable (branches : List Shape) (obliged : Bool) : Bool :=
  !obliged || branches.any fun b => b.requiredNames.isEmpty

/-- The constraint of a choice that has alternatives. -/
theorem choice?_eq {branches : List Shape} {obliged : Bool} {choice : Json}
    (h : choice? branches obliged = some choice) :
    choice = .object [(if !overlap branches then "oneOf" else "anyOf",
      .array ((inhabited branches).map (fun b =>
          b.alternative (branches.flatMap names) (!overlap branches)) ++
        if emptiable branches obliged then
          [.object [("not", absence (branches.flatMap names))]] else []))] := by
  unfold choice? at h
  dsimp only at h
  split at h
  · exact absurd h (by simp)
  · exact (Option.some.inj h).symm

theorem choice?_isSome {branches : List Shape} (obliged : Bool) {branch : Shape}
    (h : branch ∈ inhabited branches) : (choice? branches obliged).isSome = true := by
  unfold choice?
  dsimp only
  rw [if_neg]
  · rfl
  · rw [List.isEmpty_iff, List.map_eq_nil_iff]
    exact List.ne_nil_of_mem h

/-- The constraint is that of a choice. -/
def IsChoice (choice : Json) : Prop :=
  ∃ branches obliged, choice? branches obliged = some choice

variable {branches : List Shape} {obliged : Bool} {choice : Json}

theorem keyword_alternatives (exclusive : Bool) :
    (if exclusive then "oneOf" else "anyOf") = "anyOf" ∨
      (if exclusive then "oneOf" else "anyOf") = "oneOf" := by
  cases exclusive
  · exact .inl rfl
  · exact .inr rfl

theorem reference?_alternatives {keyword : String} (hk : keyword = "anyOf" ∨ keyword = "oneOf")
    (schemas : List Json) : reference? [(keyword, .array schemas)] = none := by
  rcases hk with rfl | rfl <;> rfl

/-- The constraint is met by an object with the content of one of the branches. -/
theorem met_choice_of_chosen (h : choice? branches obliged = some choice) {branch : Shape}
    (hb : branch ∈ branches)
    (hc : Chosen entries branch (branches.flatMap names) (!overlap branches)) :
    Met entries choice := by
  intro Home follow home
  obtain ⟨name, hname, hpresent⟩ := hc.inhabited
  have hmem : branch ∈ inhabited branches := mem_inhabited.2 ⟨hb, List.ne_nil_of_mem hname⟩
  have hall : name ∈ branches.flatMap names := List.mem_flatMap.2 ⟨branch, hb, hname⟩
  rw [choice?_eq h]
  refine accepts_object (reference?_alternatives (keyword_alternatives _) _) fun member hm => ?_
  obtain rfl := List.mem_singleton.1 hm
  cases hover : overlap branches with
  | true =>
      rw [hover] at hc
      refine passes_anyOf (List.mem_append_left _ (List.mem_map.2 ⟨branch, hmem, rfl⟩)) ?_
      exact met_alternative hc Home follow home
  | false =>
      rw [hover] at hc
      -- Every other alternative excludes the member that is there, as does that of no member.
      obtain ⟨first, rest, hsplit⟩ := List.append_of_mem hmem
      have hpair : (inhabited branches).Pairwise fun b c => ∀ n ∈ b.names, n ∉ c.names :=
        (overlap_eq_false.1 hover).filter _
      rw [hsplit, List.pairwise_append, List.pairwise_cons] at hpair
      have hother : ∀ b : Shape, name ∉ b.names → Rejects follow home (.object entries)
          (b.alternative (branches.flatMap names) true) :=
        fun b hn => unmet_alternative_of_other hall hn hpresent Home follow home
      rw [hsplit, List.map_append, List.map_cons, List.append_assoc, List.cons_append]
      refine passes_oneOf (fun other ho => ?_) (met_alternative hc Home follow home)
        (fun other ho => ?_)
      · obtain ⟨b, hbf, rfl⟩ := List.mem_map.1 ho
        exact hother b fun hn => hpair.2.2 b hbf branch List.mem_cons_self name hn hname
      · rcases List.mem_append.1 ho with ho | ho
        · obtain ⟨b, hbr, rfl⟩ := List.mem_map.1 ho
          exact hother b fun hn => hpair.2.1.1 b hbr name hname hn
        · split_ifs at ho
          · obtain rfl := List.mem_singleton.1 ho
            exact unmet_none ⟨name, hall, hpresent⟩ Home follow home
          · exact absurd ho List.not_mem_nil

/-- The constraint is met by an object without any member of the choice if it can do without. -/
theorem met_choice_of_none (h : choice? branches obliged = some choice)
    (he : emptiable branches obliged = true) (hn : ¬ Present entries (branches.flatMap names)) :
    Met entries choice := by
  intro Home follow home
  have hrejects : ∀ other ∈ (inhabited branches).map (fun b =>
      b.alternative (branches.flatMap names) (!overlap branches)),
      Rejects follow home (.object entries) other := by
    intro other ho
    obtain ⟨b, hb, rfl⟩ := List.mem_map.1 ho
    obtain ⟨hb, hne⟩ := mem_inhabited.1 hb
    refine unmet_alternative_of_absent hne ?_ Home follow home
    rintro ⟨name, hname, hc⟩
    exact hn ⟨name, List.mem_flatMap.2 ⟨b, hb, hname⟩, hc⟩
  rw [choice?_eq h, if_pos he]
  refine accepts_object (reference?_alternatives (keyword_alternatives _) _) fun member hm => ?_
  obtain rfl := List.mem_singleton.1 hm
  cases hover : overlap branches with
  | true =>
      exact passes_anyOf (List.mem_append_right _ (List.mem_singleton.2 rfl))
        (met_none hn Home follow home)
  | false =>
      rw [hover] at hrejects
      exact passes_oneOf hrejects (met_none hn Home follow home)
        fun other ho => absurd ho List.not_mem_nil

/-- The constraint of exclusive branches is violated by an object that no alternative takes, if it
has a member of the choice or cannot do without. -/
theorem unmet_choice_of_alternatives (h : choice? branches obliged = some choice)
    (hover : overlap branches = false)
    (hn : emptiable branches obliged = true → Present entries (branches.flatMap names))
    (hb : ∀ branch ∈ inhabited branches,
      Unmet entries (branch.alternative (branches.flatMap names) true)) :
    Unmet entries choice := by
  intro Home follow home
  rw [choice?_eq h, hover]
  refine rejects_object (reference?_alternatives (keyword_alternatives _) _) List.mem_cons_self
    (fails_alternatives (.inr rfl) fun other ho => ?_)
  rcases List.mem_append.1 ho with ho | ho
  · obtain ⟨b, hbm, rfl⟩ := List.mem_map.1 ho
    exact hb b hbm Home follow home
  · split_ifs at ho with he
    · obtain rfl := List.mem_singleton.1 ho
      exact unmet_none (hn he) Home follow home
    · exact absurd ho List.not_mem_nil

/-- The constraint of exclusive branches is violated by an object with a member of the choice if
each branch excludes another member that is there, or has a constraint that is violated. -/
theorem unmet_choice (h : choice? branches obliged = some choice)
    (hover : overlap branches = false) (hp : Present entries (branches.flatMap names))
    (hb : ∀ branch ∈ branches,
      (∃ name ∈ branches.flatMap names, name ∉ branch.names ∧
        Table.contains entries name = true) ∨
      ∃ inner ∈ branch.choices, Unmet entries inner) :
    Unmet entries choice := by
  refine unmet_choice_of_alternatives h hover (fun _ => hp) fun b hbm => ?_
  rcases hb b (mem_inhabited.1 hbm).1 with ⟨name, ha, hn, hc⟩ | ⟨inner, hi, hu⟩
  · exact unmet_alternative_of_other ha hn hc
  · exact unmet_alternative_of_choice hi hu

end Shape

end Crosswalk
