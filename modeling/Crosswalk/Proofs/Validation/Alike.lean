import Crosswalk.Proofs.Json.Alike
import Crosswalk.Proofs.Json.Links
import Crosswalk.Proofs.Validation.Check

/-!
# Schemas that are alike

Two checks of one value come to the same if the schemas are alike and each link, where it stands, is
followed to the same effect. That the two checks stand at different places makes no difference, and
neither does the document of a schema that has no links.
-/

namespace Crosswalk

open Json

namespace Check

/-! ### Keywords without schemas -/

theorem any_same_alike {as bs : List Json}
    (h : List.Forall₂ (fun a b => a.alike b = true) as bs) (value : Json) :
    as.any value.same = bs.any value.same := by
  induction h with
  | nil => rfl
  | cons hab _ ih => rw [List.any_cons, List.any_cons, same_right_of_alike hab value, ih]

theorem typesOf_alike {a b : Json} (h : a.alike b = true) : typesOf a = typesOf b := by
  cases a <;> cases b <;> first | rfl | exact absurd h Bool.false_ne_true | skip
  · next s t => rw [show s = t from eq_of_beq h]
  · next as bs =>
      simp only [typesOf]
      congr 1
      funext type
      exact any_same_alike (forall₂_items h) _

theorem countOf?_alike {a b : Json} (h : a.alike b = true) : countOf? a = countOf? b := by
  cases a <;> cases b <;> first | rfl | exact absurd h Bool.false_ne_true | skip
  next m n =>
    cases m <;> cases n <;> first | rfl | exact absurd h Bool.false_ne_true | skip
    next m n => rw [show m = n from eq_of_beq h]

theorem complaintUnless_eq_nil {holds : Bool} {complaint : Complaint} :
    complaintUnless holds complaint = [] ↔ holds = true := by
  cases holds <;> simp [complaintUnless]

theorem numberComplaints_alike {a b : Json} (h : a.alike b = true) (value : Json)
    (holds : Ordering → Bool) (complaint : Json → Number → Complaint) :
    numberComplaints value a holds complaint = [] ↔
      numberComplaints value b holds complaint = [] := by
  cases a <;> cases b <;> first
    | exact Iff.rfl
    | exact absurd h Bool.false_ne_true
    | (cases value <;> exact Iff.rfl)
    | skip
  next m n =>
    cases value with
    | number v =>
        simp only [numberComplaints, complaintUnless_eq_nil]
        rw [(Number.isEqual_of_alike h).compare_right]
    | _ => exact Iff.rfl

theorem lengthComplaints_alike {a b : Json} (h : a.alike b = true) (value : Json)
    (holds : Nat → Nat → Bool) (complaint : Json → Nat → Complaint) :
    lengthComplaints value a holds complaint = lengthComplaints value b holds complaint := by
  simp only [lengthComplaints, countOf?_alike h]

theorem itemComplaints_alike {a b : Json} (h : a.alike b = true) (value : Json)
    (holds : Nat → Nat → Bool) (complaint : Json → Nat → Complaint) :
    itemComplaints value a holds complaint = itemComplaints value b holds complaint := by
  simp only [itemComplaints, countOf?_alike h]

theorem complaints_alike (keyword : String) {a b : Json} (h : a.alike b = true) (value : Json) :
    complaints keyword a value = [] ↔ complaints keyword b value = [] := by
  have hnumbers := numberComplaints_alike h value
  by_cases htext : ∃ text, a = .string text
  · obtain ⟨text, rfl⟩ := htext
    cases b with
    | string t => rw [show text = t from eq_of_beq h]
    | _ => cases h
  unfold complaints
  split
  · simp only [typesOf_alike h]
  · cases b with
    | array bs =>
        simp only [complaintUnless_eq_nil]
        rw [any_same_alike (forall₂_items h)]
    | _ => cases h
  · simp only [complaintUnless_eq_nil]
    rw [same_left_of_alike h]
  · cases b with
    | array bs =>
        dsimp only
        rw [filterMap_alike string?_alike (forall₂_items h)]
        exact Iff.rfl
    | _ => cases h
  · exact absurd ⟨_, rfl⟩ htext
  · exact absurd ⟨_, rfl⟩ htext
  · rw [lengthComplaints_alike h]
  · rw [lengthComplaints_alike h]
  · rw [itemComplaints_alike h]
  · rw [itemComplaints_alike h]
  · exact hnumbers _ _
  · exact hnumbers _ _
  · exact hnumbers _ _
  · exact hnumbers _ _
  · cases b with
    | number n =>
        cases value with
        | number v =>
            simp only [complaintUnless_eq_nil]
            rw [(Number.isEqual_of_alike h).isMultiple_right]
        | _ => exact Iff.rfl
    | _ => cases h
  -- A keyword that nothing is asked of, or a bound of a form that the keyword does not know.
  · split
    all_goals first
      | exact Iff.rfl
      | (simp_all; done)
      | (cases a <;> first | exact absurd h Bool.false_ne_true | simp_all)

/-! ### Schemas -/

theorem find?_alike : ∀ {fs gs : List (String × Json)},
    agree.agreeFields Number.alike fs gs = true → ∀ key : String,
      Option.Rel (fun a b => a.alike b = true) (Table.find? fs key) (Table.find? gs key)
  | [], [], _, _ => .none
  | [], _ :: _, h, _ => absurd h Bool.false_ne_true
  | _ :: _, [], h, _ => absurd h Bool.false_ne_true
  | (k, a) :: fs, (l, b) :: gs, h, key => by
      rw [agree.agreeFields, Bool.and_eq_true, Bool.and_eq_true, beq_iff_eq] at h
      obtain ⟨⟨rfl, hab⟩, hrest⟩ := h
      rw [Table.find?_cons, Table.find?_cons]
      split
      · exact .some hab
      · exact find?_alike hrest key

theorem keys_alike : ∀ {fs gs : List (String × Json)},
    agree.agreeFields Number.alike fs gs = true → Table.keys fs = Table.keys gs
  | [], [], _ => rfl
  | [], _ :: _, h => absurd h Bool.false_ne_true
  | _ :: _, [], h => absurd h Bool.false_ne_true
  | (k, a) :: fs, (l, b) :: gs, h => by
      rw [agree.agreeFields, Bool.and_eq_true, Bool.and_eq_true, beq_iff_eq] at h
      exact congrArg₂ List.cons h.1.1 (keys_alike h.2)

/-- What is read off a member, where it is read off values that are alike to the same effect. -/
theorem find?_bind_alike {fs gs : List (String × Json)} {β : Type} {part : Json → Option β}
    (h : agree.agreeFields Number.alike fs gs = true) (key : String)
    (hpart : ∀ {a b : Json}, a.alike b = true → part a = part b) :
    (Table.find? fs key).bind part = (Table.find? gs key).bind part := by
  have hrel := find?_alike h key
  generalize Table.find? fs key = x, Table.find? gs key = y at hrel ⊢
  cases hrel with
  | none => rfl
  | some hab => exact hpart hab

theorem reference?_alike {fs gs : List (String × Json)}
    (h : agree.agreeFields Number.alike fs gs = true) : reference? fs = reference? gs :=
  find?_bind_alike h "$ref" string?_alike

theorem names_alike {a b : Json} (h : a.alike b = true) :
    a.fields?.map Table.keys = b.fields?.map Table.keys := by
  cases a <;> cases b <;> first | rfl | exact absurd h Bool.false_ne_true | skip
  next fs gs => exact congrArg some (keys_alike h)

theorem declared_alike {fs gs : List (String × Json)}
    (h : agree.agreeFields Number.alike fs gs = true) : declared fs = declared gs := by
  rw [declared, declared, Option.map_bind, Option.map_bind]
  exact find?_bind_alike h "properties" names_alike

variable {Source Target : Type} {follow : Follow Source} {home : Source}
  {follow' : Follow Target} {home' : Target}

/-- The link is followed to the same effect from both places. -/
def FollowsAlike (follow : Follow Source) (home : Source) (follow' : Follow Target)
    (home' : Target) (link : String) : Prop :=
  ∀ value p q, follow home link value p = [] ↔ follow' home' link value q = []

/-- The results of the alternatives of a keyword, where one is empty if the other one is. -/
theorem alternatives_congr {keyword : String} {p q : Position} {value : Json}
    {results results' : List (List Violation)}
    (h : List.Forall₂ (fun r s => r = [] ↔ s = []) results results') :
    alternatives keyword p value results = [] ↔ alternatives keyword q value results' = [] := by
  have hlength : (results.filter List.isEmpty).length = (results'.filter List.isEmpty).length := by
    induction h with
    | nil => rfl
    | @cons r s rs ss hrs _ ih =>
        rw [← List.isEmpty_iff, ← List.isEmpty_iff, ← Bool.eq_iff_iff] at hrs
        rw [List.filter_cons, List.filter_cons, hrs]
        split
        · rw [List.length_cons, List.length_cons, ih]
        · exact ih
  unfold alternatives
  rw [hlength]
  split
  · simp
  · simp
  · split <;> simp

theorem flatten_congr {results results' : List (List Violation)}
    (h : List.Forall₂ (fun r s => r = [] ↔ s = []) results results') :
    results.flatten = [] ↔ results'.flatten = [] := by
  induction h with
  | nil => rfl
  | cons hrs _ ih => rw [List.flatten_cons, List.flatten_cons, List.append_eq_nil_iff,
      List.append_eq_nil_iff, hrs, ih]

theorem additional_congr {whole whole' : Table String Json} (h : declared whole = declared whole')
    (value : Json) : additional whole value = additional whole' value := by
  cases value <;> simp only [additional, h]

theorem refusal_congr {whole whole' : Table String Json} (h : declared whole = declared whole')
    (p q : Position) (value : Json) :
    refusal whole p value = [] ↔ refusal whole' q value = [] := by
  unfold refusal
  rw [additional_congr h, h]
  split <;> simp

/-- The keyword has no schema inside, and its violations are complaints. -/
def Complains (keyword : String) : Prop :=
  ∀ {Home : Type} (follow : Follow Home) (home : Home) (p : Position) (value : Json)
    (whole : Table String Json) (bound : Json),
    checkKeywords follow home p value whole [(keyword, bound)] =
      [(keyword, (complaints keyword bound value).map (p.under keyword).violation)]

theorem keyword_cases (keyword : String) :
    keyword = "properties" ∨ keyword = "additionalProperties" ∨ keyword = "items" ∨
    keyword = "allOf" ∨ keyword = "anyOf" ∨ keyword = "oneOf" ∨ keyword = "not" ∨
    Complains keyword := by
  by_cases h : keyword ∈ ["properties", "additionalProperties", "items", "allOf", "anyOf", "oneOf",
    "not"]
  · simp only [List.mem_cons, List.not_mem_nil, or_false] at h
    tauto
  · simp only [List.mem_cons, List.not_mem_nil, or_false, not_or] at h
    obtain ⟨h1, h2, h3, h4, h5, h6, h7⟩ := h
    iterate 7 right
    intro Home follow home p value whole bound
    rw [checkKeywords.eq_10 _ _ _ _ _ _ _ _ h1 h2 h3 h4 h5 h6 h7, checkKeywords]

/-- A keyword asks the same by each of two bounds that are alike, once the schemas in them do. -/
theorem keyword_congr {a b : Json} {whole whole' : Table String Json} (hab : a.alike b = true)
    (hdeclared : declared whole = declared whole')
    (hcheck : ∀ value p q,
      check follow home p value a = [] ↔ check follow' home' q value b = [])
    (hproperties : ∀ value p q,
      checkProperties follow home p value a = [] ↔ checkProperties follow' home' q value b = [])
    (hmembers : ∀ value p q, List.Forall₂ (fun r s => r = [] ↔ s = [])
      (checkMembers follow home p value a) (checkMembers follow' home' q value b))
    (keyword : String) (value : Json) (p q : Position) :
    (∀ entry ∈ checkKeywords follow home p value whole [(keyword, a)], entry.2 = []) ↔
      ∀ entry ∈ checkKeywords follow' home' q value whole' [(keyword, b)], entry.2 = [] := by
  have hmembers := hmembers value (p.under keyword) (q.under keyword)
  rcases keyword_cases keyword with rfl | rfl | rfl | rfl | rfl | rfl | rfl | hk
  · simpa only [checkKeywords, List.forall_mem_singleton] using hproperties value _ _
  · simp only [checkKeywords, List.forall_mem_singleton, bool?_alike hab,
      additional_congr hdeclared]
    split
    · exact refusal_congr hdeclared _ _ value
    · simp only [List.flatMap_eq_nil_iff]
      exact forall₂_congr fun entry _ => hcheck _ _ _
  · cases value with
    | array items =>
        simp only [checkKeywords, List.forall_mem_singleton, List.flatMap_eq_nil_iff]
        exact forall₂_congr fun item _ => hcheck _ _ _
    | _ => simp only [checkKeywords, List.forall_mem_singleton]
  · simpa only [checkKeywords, List.forall_mem_singleton] using flatten_congr hmembers
  · simpa only [checkKeywords, List.forall_mem_singleton] using alternatives_congr hmembers
  · simpa only [checkKeywords, List.forall_mem_singleton] using alternatives_congr hmembers
  · have hnot := hcheck value (p.under "not") (q.under "not")
    rw [← List.isEmpty_iff, ← List.isEmpty_iff, ← Bool.eq_iff_iff] at hnot
    simp only [checkKeywords, List.forall_mem_singleton, hnot]
    split <;> simp
  · rw [hk, hk, List.forall_mem_singleton, List.forall_mem_singleton]
    simpa using complaints_alike keyword hab value

mutual

theorem check_alike : ∀ {a b : Json}, LinksSatisfy (FollowsAlike follow home follow' home') a →
    a.alike b = true → ∀ (value : Json) (p q : Position),
      check follow home p value a = [] ↔ check follow' home' q value b = []
  | .null, b, _, h, _, _, _ => by
      cases b with
      | null => exact Iff.rfl
      | _ => exact nomatch h
  | .bool x, b, _, h, _, _, _ => by
      cases b with
      | bool y =>
          obtain rfl := show x = y from eq_of_beq h
          cases x <;> simp [check]
      | _ => exact nomatch h
  | .number m, b, _, h, _, _, _ => by
      cases b with
      | number n => exact Iff.rfl
      | _ => exact nomatch h
  | .string s, b, _, h, _, _, _ => by
      cases b with
      | string t => exact Iff.rfl
      | _ => exact nomatch h
  | .array as, b, _, h, _, _, _ => by
      cases b with
      | array bs => exact Iff.rfl
      | _ => exact nomatch h
  | .object fs, b, hl, h, value, p, q => by
      cases b with
      | object gs =>
          have hlinks : MembersAre (FollowsAlike follow home follow' home') fs :=
            linksSatisfy_object.1 hl
          have href : reference? fs = reference? gs := reference?_alike h
          cases hr : reference? fs with
          | some link =>
              obtain ⟨v, hv, hlink⟩ := Option.bind_eq_some_iff.1 hr
              have hmem := hlinks _ (Table.mem_of_find? hv)
              cases v with
              | string text =>
                  obtain rfl := Option.some.inj hlink
                  rw [check, check, hr, ← href, hr]
                  exact hmem.1 rfl text rfl value _ _
              | _ => exact nomatch hlink
          | none =>
              rw [check_object hr, check_object (href ▸ hr), arrange_eq_nil, arrange_eq_nil]
              exact checkKeywords_alike hl h (declared_alike h) value p q
      | _ => exact nomatch h

theorem checkKeywords_alike : ∀ {ms ns : List (String × Json)},
    MembersSatisfy (FollowsAlike follow home follow' home') ms →
    agree.agreeFields Number.alike ms ns = true → ∀ {whole whole' : Table String Json},
    declared whole = declared whole' → ∀ (value : Json) (p q : Position),
      (∀ entry ∈ checkKeywords follow home p value whole ms, entry.2 = []) ↔
        ∀ entry ∈ checkKeywords follow' home' q value whole' ns, entry.2 = []
  | [], [], _, _, _, _, _, _, _, _ => by simp [checkKeywords]
  | [], _ :: _, _, h, _, _, _, _, _, _ => absurd h Bool.false_ne_true
  | _ :: _, [], _, h, _, _, _, _, _, _ => absurd h Bool.false_ne_true
  | (k, a) :: ms, (l, b) :: ns, hl, h, whole, whole', hd, value, p, q => by
      rw [agree.agreeFields, Bool.and_eq_true, Bool.and_eq_true, beq_iff_eq] at h
      obtain ⟨⟨rfl, hab⟩, hrest⟩ := h
      rw [MembersSatisfy] at hl
      rw [checkKeywords_cons p whole (k, a) ms, checkKeywords_cons q whole' (k, b) ns,
        List.forall_mem_append, List.forall_mem_append]
      exact and_congr
        (keyword_congr hab hd (check_alike hl.2.1 hab) (checkProperties_alike hl.2.1 hab)
          (checkMembers_alike hl.2.1 hab) k value p q)
        (checkKeywords_alike hl.2.2 hrest hd value p q)

theorem checkProperties_alike : ∀ {a b : Json},
    LinksSatisfy (FollowsAlike follow home follow' home') a → a.alike b = true →
    ∀ (value : Json) (p q : Position),
      checkProperties follow home p value a = [] ↔ checkProperties follow' home' q value b = []
  | .null, b, _, h, _, _, _ => by
      cases b with
      | null => exact Iff.rfl
      | _ => exact nomatch h
  | .bool x, b, _, h, _, _, _ => by
      cases b with
      | bool y => exact Iff.rfl
      | _ => exact nomatch h
  | .number m, b, _, h, _, _, _ => by
      cases b with
      | number n => exact Iff.rfl
      | _ => exact nomatch h
  | .string s, b, _, h, _, _, _ => by
      cases b with
      | string t => exact Iff.rfl
      | _ => exact nomatch h
  | .array as, b, _, h, _, _, _ => by
      cases b with
      | array bs => exact Iff.rfl
      | _ => exact nomatch h
  | .object fs, b, hl, h, value, p, q => by
      cases b with
      | object gs => exact checkEntries_alike hl h value p q
      | _ => exact nomatch h

theorem checkEntries_alike : ∀ {ms ns : List (String × Json)},
    MembersSatisfy (FollowsAlike follow home follow' home') ms →
    agree.agreeFields Number.alike ms ns = true → ∀ (value : Json) (p q : Position),
      checkEntries follow home p value ms = [] ↔ checkEntries follow' home' q value ns = []
  | [], [], _, _, _, _, _ => Iff.rfl
  | [], _ :: _, _, h, _, _, _ => absurd h Bool.false_ne_true
  | _ :: _, [], _, h, _, _, _ => absurd h Bool.false_ne_true
  | (k, a) :: ms, (l, b) :: ns, hl, h, value, p, q => by
      rw [agree.agreeFields, Bool.and_eq_true, Bool.and_eq_true, beq_iff_eq] at h
      obtain ⟨⟨rfl, hab⟩, hrest⟩ := h
      rw [MembersSatisfy] at hl
      rw [checkEntries, checkEntries, List.append_eq_nil_iff, List.append_eq_nil_iff]
      refine and_congr ?_ (checkEntries_alike hl.2.2 hrest value p q)
      split
      · exact check_alike hl.2.1 hab _ _ _
      · exact Iff.rfl

theorem checkMembers_alike : ∀ {a b : Json},
    LinksSatisfy (FollowsAlike follow home follow' home') a → a.alike b = true →
    ∀ (value : Json) (p q : Position),
      List.Forall₂ (fun r s => r = [] ↔ s = []) (checkMembers follow home p value a)
        (checkMembers follow' home' q value b)
  | .null, b, _, h, _, _, _ => by
      cases b with
      | null => exact .nil
      | _ => exact nomatch h
  | .bool x, b, _, h, _, _, _ => by
      cases b with
      | bool y => exact .nil
      | _ => exact nomatch h
  | .number m, b, _, h, _, _, _ => by
      cases b with
      | number n => exact .nil
      | _ => exact nomatch h
  | .string s, b, _, h, _, _, _ => by
      cases b with
      | string t => exact .nil
      | _ => exact nomatch h
  | .object fs, b, _, h, _, _, _ => by
      cases b with
      | object gs => exact .nil
      | _ => exact nomatch h
  | .array as, b, hl, h, value, p, q => by
      cases b with
      | array bs => exact checkEach_alike hl h value p q 0 0
      | _ => exact nomatch h

theorem checkEach_alike : ∀ {as bs : List Json},
    ItemsSatisfy (FollowsAlike follow home follow' home') as →
    agree.agreeItems Number.alike as bs = true → ∀ (value : Json) (p q : Position) (i j : Nat),
      List.Forall₂ (fun r s => r = [] ↔ s = []) (checkEach follow home p value i as)
        (checkEach follow' home' q value j bs)
  | [], [], _, _, _, _, _, _, _ => .nil
  | [], _ :: _, _, h, _, _, _, _, _ => absurd h Bool.false_ne_true
  | _ :: _, [], _, h, _, _, _, _, _ => absurd h Bool.false_ne_true
  | a :: as, b :: bs, hl, h, value, p, q, i, j => by
      rw [agree.agreeItems, Bool.and_eq_true] at h
      rw [ItemsSatisfy] at hl
      rw [checkEach, checkEach]
      exact .cons (check_alike hl.1 h.1 value _ _) (checkEach_alike hl.2 h.2 value p q _ _)

end

end Check

end Crosswalk
