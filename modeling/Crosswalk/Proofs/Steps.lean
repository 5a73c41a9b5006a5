import Crosswalk.Proofs.Json.InPlace
import Crosswalk.Proofs.Json.Pointer
import Crosswalk.Proofs.Validation.Alike
import Crosswalk.Proofs.Validation.Blind
import Mathlib.Logic.Relation
import Mathlib.Order.Filter.EventuallyConst

/-!
# The steps of a check

A check of a value stands at a schema in a document. It goes on with the same value at the schemas
that this one applies and at what its link leads to, or with a value inside of the first one at the
schemas of properties and items. The steps with the same value are all that can go on forever. If
they do not from what the links of the documents lead to, then no check of any value does.

What a check comes to when links are followed as often as it takes is a way to follow links itself:
a link is judged as the schema is that it leads to. It is the only one that matters where no check
goes on forever, for there every check comes to the same from some number of steps on.
-/

namespace Crosswalk

open Json Check Filter

/-- A schema in a document. -/
abbrev Place := Document × Json

namespace Document

/-- The steps of a check that stay at the same value. -/
inductive StepInPlace (documents : List Document) : Place → Place → Prop where
  | part {document : Document} {schema part : Json} : Applies schema part →
    StepInPlace documents (document, schema) (document, part)
  | link {document : Document} {schema : Json} {link : String} {target : Place} :
    Refers schema link → followed? documents document link = some target →
      StepInPlace documents (document, schema) target

/-- The steps of a check of a value. -/
inductive Step (documents : List Document) : Place × Json → Place × Json → Prop where
  | inPlace {here next : Place} {value : Json} :
    StepInPlace documents here next → Step documents (here, value) (next, value)
  | property {document : Document} {fields entries : List (String × Json)} {name : String}
    {schema value inner : Json} :
    ("properties", .object entries) ∈ fields → (name, schema) ∈ entries →
      value.field? name = some inner →
        Step documents ((document, .object fields), value) ((document, schema), inner)
  | additional {document : Document} {fields members : List (String × Json)} {name : String}
    {schema inner : Json} :
    ("additionalProperties", schema) ∈ fields → (name, inner) ∈ members →
      Step documents ((document, .object fields), .object members) ((document, schema), inner)
  | item {document : Document} {fields : List (String × Json)} {items : List Json}
    {schema inner : Json} :
    ("items", schema) ∈ fields → inner ∈ items →
      Step documents ((document, .object fields), .array items) ((document, schema), inner)

/-- Some schema in the documents leads to itself in steps at the same value. -/
def Loops (documents : List Document) : Prop :=
  ∃ document ∈ documents, ∃ pointer schema, document.schema.pointed? pointer = some schema ∧
    Relation.TransGen (StepInPlace documents) (document, schema) (document, schema)

/-- No steps at the same value go on forever from here. -/
def Grounded (documents : List Document) (place : Place) : Prop :=
  Acc (fun next here => StepInPlace documents here next) place

/-- No steps at the same value go on forever from what a link leads to. -/
def LinkGrounded (documents : List Document) (document : Document) (link : String) : Prop :=
  ∀ target, followed? documents document link = some target → Grounded documents target

variable {documents : List Document} {document : Document} {place next : Place} {schema : Json}

/-- A place from which no steps go on forever is on no loop. -/
theorem Grounded.acyclic (h : Grounded documents place) :
    ¬ Relation.TransGen (StepInPlace documents) place place := by
  induction h with
  | intro place _ ih =>
      intro hloop
      obtain ⟨next, hstep, hback⟩ := Relation.TransGen.head'_iff.1 hloop
      exact ih next hstep (Relation.TransGen.tail' hback hstep)

/-- The parts of a schema are smaller, so that only links can lead on forever. -/
theorem grounded_of_linksInPlace {schema : Json}
    (h : LinksInPlace (LinkGrounded documents document) schema) :
    Grounded documents (document, schema) := by
  refine .intro _ fun next hstep => ?_
  cases hstep with
  | part ha => exact grounded_of_linksInPlace fun link hl => h link (.part ha hl)
  | link hr hf => exact h _ (.own hr) next hf
termination_by sizeOf schema
decreasing_by exact ha.sizeOf_lt

/-- A link that a check comes to with the same value leads on to where it points. -/
theorem transGen_of_refersInPlace {link : String} {target : Place} (h : RefersInPlace schema link)
    (hf : followed? documents document link = some target) :
    Relation.TransGen (StepInPlace documents) (document, schema) target := by
  induction h with
  | own hr => exact .single (.link hr hf)
  | part ha _ ih => exact .head (.part ha) (ih hf)

/-! ### Checks that end -/

/-- What holds of all links in a value holds of those in the values that pointers name. -/
theorem linksSatisfy_pointed? {P : String → Prop} {value inner : Json} (h : LinksSatisfy P value)
    {pointer : String} (hp : value.pointed? pointer = some inner) : LinksSatisfy P inner := by
  obtain ⟨segments, -, hf⟩ := Option.bind_eq_some_iff.1 hp
  clear hp
  induction segments generalizing value with
  | nil => exact Option.some.inj hf ▸ h
  | cons segment rest ih =>
      rw [Pointer.follow?_cons] at hf
      obtain ⟨next, hstep, hf⟩ := Option.bind_eq_some_iff.1 hf
      refine ih ?_ hf
      unfold Pointer.step? at hstep
      split at hstep
      · exact (linksSatisfy_object.1 h _ (Table.mem_of_find? hstep)).2
      · obtain ⟨i, -, hi⟩ := Option.bind_eq_some_iff.1 hstep
        exact linksSatisfy_array.1 h next (List.mem_of_getElem? hi)
      · cases hstep

/-- The links of a schema in one of the documents do not lead to steps that go on forever. -/
structure IsSound (documents : List Document) (place : Place) : Prop where
  mem : place.1 ∈ documents
  links : LinksSatisfy (LinkGrounded documents place.1) place.2

/-- The links of all documents are of this kind. -/
def AreSound (documents : List Document) : Prop :=
  ∀ document ∈ documents, LinksSatisfy (LinkGrounded documents document) document.schema

theorem IsSound.grounded (h : IsSound documents place) : Grounded documents place :=
  grounded_of_linksInPlace h.links.inPlace

theorem AreSound.not_loops (hall : AreSound documents) : ¬ Loops documents := by
  rintro ⟨document, hd, pointer, schema, hp, hloop⟩
  have sound : IsSound documents (document, schema) :=
    ⟨hd, linksSatisfy_pointed? (hall document hd) hp⟩
  exact sound.grounded.acyclic hloop

theorem IsSound.stepInPlace (hall : AreSound documents) (h : IsSound documents place)
    (hs : StepInPlace documents place next) : IsSound documents next := by
  cases hs with
  | part ha => exact ⟨h.mem, h.links.applies ha⟩
  | link hr hf =>
      obtain ⟨hdocument, pointer, hp⟩ := mem_of_followed? hf
      have hmem : next.1 ∈ documents := hdocument.elim (fun heq => heq ▸ h.mem) id
      exact ⟨hmem, linksSatisfy_pointed? (hall _ hmem) hp⟩

/-- What a step goes on with is as sound, and if it is not the same value, it is a smaller one. -/
theorem IsSound.step (hall : AreSound documents) (h : IsSound documents place) {value inner : Json}
    (hs : Step documents (place, value) (next, inner)) :
    IsSound documents next ∧
      ((StepInPlace documents place next ∧ inner = value) ∨ sizeOf inner < sizeOf value) := by
  cases hs with
  | inPlace hs => exact ⟨h.stepInPlace hall hs, .inl ⟨hs, rfl⟩⟩
  | property hm he hv =>
      refine ⟨⟨h.mem, (linksSatisfy_object.1
        (linksSatisfy_object.1 h.links _ hm).2 _ he).2⟩, .inr ?_⟩
      unfold Json.field? at hv
      split at hv
      · have hlt := List.sizeOf_lt_of_mem (Table.mem_of_find? hv)
        simp only [Prod.mk.sizeOf_spec, Json.object.sizeOf_spec] at hlt ⊢
        omega
      · exact nomatch hv
  | additional hm he =>
      refine ⟨⟨h.mem, (linksSatisfy_object.1 h.links _ hm).2⟩, .inr ?_⟩
      have hlt := List.sizeOf_lt_of_mem he
      simp only [Prod.mk.sizeOf_spec, Json.object.sizeOf_spec] at hlt ⊢
      omega
  | item hm hi =>
      refine ⟨⟨h.mem, (linksSatisfy_object.1 h.links _ hm).2⟩, .inr ?_⟩
      have hlt := List.sizeOf_lt_of_mem hi
      simp only [Json.array.sizeOf_spec]
      omega

/-- No check goes on forever, whatever value it checks. -/
theorem IsSound.ends (hall : AreSound documents) (h : IsSound documents place) (value : Json) :
    Acc (fun next here => Step documents here next) (place, value) := by
  induction hsize : sizeOf value using Nat.strongRecOn generalizing place value with
  | ind size smaller =>
      have hground := h.grounded
      induction hground with
      | intro place _ ih =>
          refine .intro _ fun ⟨next, inner⟩ hs => ?_
          obtain ⟨hnext, ⟨hstep, rfl⟩ | hlt⟩ := h.step hall hs
          · exact ih next hstep hnext
          · exact smaller _ (hsize ▸ hlt) hnext inner rfl

/-! ### Results of checks

These are all steps of a check: one that they do not lead on forever has the same result however
often links are followed, from some number on.
-/

/-- How a check in a document follows links, at most so often. -/
def following (documents : List Document) : Nat → Follow Document
  | 0, _, _, _, _ => []
  | steps + 1, document, link, value, p =>
    match followed? documents document link with
    | some (target, schema) => check (following documents steps) target p value schema
    | none => []

/-- The result of a check does not depend on how often links are followed, once that is enough. -/
def Settles (documents : List Document) (document : Document) (p : Position)
    (value schema : Json) : Prop :=
  EventuallyConst (fun steps => check (following documents steps) document p value schema) atTop

variable {value : Json} {p : Position}

/-! What is settled by a number of steps is settled along other families of ways to follow links,
as long as each link is once what it leads to is. -/

section

variable {ι : Type} {follows : ι → Follow Document} {L : Filter ι}

/-- What a keyword adds does not depend on how links are followed. -/
def KeywordSettles (follows : ι → Follow Document) (L : Filter ι) (document : Document)
    (p : Position) (value : Json) (whole : Table String Json) (member : String × Json) : Prop :=
  EventuallyConst (fun i => checkKeywords (follows i) document p value whole [member]) L

theorem eventuallyConst_flatMap {α : Type} {items : List α} {results : ι → α → List Violation}
    (h : ∀ item ∈ items, EventuallyConst (fun i => results i item) L) :
    EventuallyConst (fun i => items.flatMap (results i)) L := by
  induction items with
  | nil => exact .const []
  | cons item rest ih =>
      rw [List.forall_mem_cons] at h
      exact h.1.comp₂ (· ++ ·) (ih h.2)

theorem settles_entries {entries : List (String × Json)}
    (h : ∀ entry ∈ entries, ∀ inner, value.field? entry.1 = some inner →
      ∀ p, EventuallyConst (fun i => check (follows i) document p inner entry.2) L)
    (p : Position) :
    EventuallyConst (fun i => checkEntries (follows i) document p value entries) L := by
  induction entries with
  | nil => exact .const []
  | cons entry rest ih =>
      rw [List.forall_mem_cons] at h
      simp only [checkEntries]
      refine EventuallyConst.comp₂ ?_ (· ++ ·) (ih h.2)
      cases hv : value.field? entry.1 with
      | none => exact .const []
      | some inner => exact h.1 inner hv _

theorem settles_each {schemas : List Json}
    (h : ∀ schema ∈ schemas, ∀ p,
      EventuallyConst (fun i => check (follows i) document p value schema) L)
    (p : Position) (n : Nat) :
    EventuallyConst (fun i => checkEach (follows i) document p value n schemas) L := by
  induction schemas generalizing n with
  | nil => exact .const []
  | cons schema rest ih =>
      rw [List.forall_mem_cons] at h
      simp only [checkEach]
      exact (h.1 _).comp₂ (· :: ·) (ih h.2 (n + 1))

theorem keywordSettles_of {whole : Table String Json} {keyword : String} {bound : Json}
    {result : ι → List Violation} (hr : EventuallyConst result L)
    (hk : ∀ i, checkKeywords (follows i) document p value whole [(keyword, bound)] =
      [(keyword, result i)]) :
    KeywordSettles follows L document p value whole (keyword, bound) := by
  simp only [KeywordSettles, hk]
  exact hr.comp fun result => [(keyword, result)]

/-- Each keyword asks for checks that are steps of this one. -/
theorem keywordSettles {fields : List (String × Json)}
    (h : ∀ next inner, Step documents ((document, .object fields), value) (next, inner) →
      ∀ p, EventuallyConst (fun i => check (follows i) next.1 p inner next.2) L)
    {member : String × Json} (hm : member ∈ fields) (p : Position) :
    KeywordSettles follows L document p value fields member := by
  obtain ⟨keyword, bound⟩ := member
  have members (hk : keyword ∈ combinators) (p : Position) : EventuallyConst
      (fun i => checkMembers (follows i) document p value bound) L := by
    cases bound with
    | array schemas =>
        exact settles_each (fun schema hs => h (document, schema) value
          (.inPlace (.part (.listed hk hm hs)))) p 0
    | _ => exact .const []
  rcases keyword_cases keyword with rfl | rfl | rfl | rfl | rfl | rfl | rfl | hk
  · refine keywordSettles_of ?_ fun _ => rfl
    cases bound with
    | object entries =>
        exact settles_entries (fun entry he inner hv => h (document, entry.2) inner
          (.property hm he hv)) _
    | _ => exact .const []
  · have extra : EventuallyConst (fun i => (additional fields value).flatMap
        fun entry => check (follows i) document
          ((p.under "additionalProperties").inside entry.1) entry.2 bound) L := by
      refine eventuallyConst_flatMap fun entry he => ?_
      cases value with
      | object members =>
          exact h (document, bound) entry.2 (.additional hm (List.mem_filter.1 he).1) _
      | _ => exact absurd he List.not_mem_nil
    exact keywordSettles_of (extra.comp fun result => if bound.bool? = some false
      then refusal fields (p.under "additionalProperties") value else result) fun _ => rfl
  · refine keywordSettles_of ?_ fun _ => rfl
    cases value with
    | array items =>
        exact eventuallyConst_flatMap fun entry he => h (document, bound) entry.1
          (.item hm (List.fst_mem_of_mem_zipIdx he)) _
    | _ => exact .const []
  · exact keywordSettles_of ((members (by decide) _).comp List.flatten) fun _ => rfl
  · exact keywordSettles_of ((members (by decide) _).comp
      (alternatives "anyOf" (p.under "anyOf") value)) fun _ => rfl
  · exact keywordSettles_of ((members (by decide) _).comp
      (alternatives "oneOf" (p.under "oneOf") value)) fun _ => rfl
  · exact keywordSettles_of ((h (document, bound) value (.inPlace (.part (.negated hm))) _).comp
      fun result => if result.isEmpty then [(p.under "not").violation (.excluded value bound)]
        else []) fun _ => rfl
  · exact keywordSettles_of (.const _) fun i => hk _ _ _ _ _ _

theorem settles_keywords {fields members : List (String × Json)}
    (h : ∀ member ∈ members, KeywordSettles follows L document p value fields member) :
    EventuallyConst
      (fun i => checkKeywords (follows i) document p value fields members) L := by
  induction members with
  | nil => exact .const []
  | cons member rest ih =>
      rw [List.forall_mem_cons] at h
      simp only [checkKeywords_cons _ _ member rest]
      exact h.1.comp₂ (· ++ ·) (ih h.2)

/-- A check that does not go on forever comes to the same result in the end, if each link does so
once what it leads to does. -/
theorem eventuallyConst_of_acc
    (hlink : ∀ {document : Document} {link : String} {value : Json},
      (∀ target, followed? documents document link = some target → ∀ p,
        EventuallyConst (fun i => check (follows i) target.1 p value target.2) L) →
      ∀ p, EventuallyConst (fun i => follows i document link value p) L)
    {state : Place × Json} (h : Acc (fun next here => Step documents here next) state) :
    ∀ p, EventuallyConst (fun i => check (follows i) state.1.1 p state.2 state.1.2) L := by
  induction h with
  | intro state _ ih =>
      intro p
      obtain ⟨⟨document, schema⟩, value⟩ := state
      cases schema with
      | object fields =>
          cases hr : reference? fields with
          | none =>
              have hk := settles_keywords (fun member hm =>
                keywordSettles (fun next inner hs => ih (next, inner) hs) hm p)
              simp only [check_object hr]
              exact hk.comp (arrange fields)
          | some link =>
              obtain ⟨text, hfind, htext⟩ := Option.bind_eq_some_iff.1 hr
              have hrefers : Refers (.object fields) link := by
                cases text with
                | string s => exact Option.some.inj htext ▸ .own (Table.mem_of_find? hfind)
                | _ => cases htext
              have hl := hlink (fun target hf =>
                ih (target, value) (.inPlace (.link hrefers hf))) (p.under "$ref")
              simpa only [check, hr] using hl
      | bool b => cases b <;> exact .const _
      | _ => exact .const _

end

theorem settles_link {link : String}
    (h : ∀ target, followed? documents document link = some target →
      ∀ p, Settles documents target.1 p value target.2) (p : Position) :
    EventuallyConst (fun steps => following documents steps document link value p) atTop := by
  rcases hf : followed? documents document link with _ | ⟨target, schema⟩
  · have hnil : (fun steps => following documents steps document link value p) = fun _ => [] := by
      funext steps
      cases steps with
      | zero => rfl
      | succ steps => simp only [following, hf]
    exact hnil ▸ .const []
  · obtain ⟨least, hleast⟩ := eventuallyConst_atTop_nat.1 (h _ hf p)
    refine eventuallyConst_atTop_nat.2 ⟨least + 1, fun steps hs => ?_⟩
    obtain ⟨steps, rfl⟩ := Nat.exists_eq_add_of_le' (Nat.le_of_add_left_le hs)
    simpa only [following, hf] using hleast steps (Nat.le_of_succ_le_succ hs)

/-- A check that does not go on forever comes to a result. -/
theorem settles_of_acc {state : Place × Json}
    (h : Acc (fun next here => Step documents here next) state) :
    ∀ p, Settles documents state.1.1 p state.2 state.1.2 :=
  eventuallyConst_of_acc settles_link h

end Document

/-! ### Verdicts -/

namespace Document

variable {documents : List Document} {document : Document} {link : String} {value : Json}

theorem isBlind_following : ∀ steps : Nat, IsBlind (following documents steps)
  | 0 => fun _ _ _ _ _ _ => rfl
  | steps + 1 => fun home link value p q h => by
      simp only [following] at h ⊢
      split at h
      · exact ((isBlind_following steps).check_alike (alike_refl _) q p).2 h
      · rfl

/-- Whatever the position, the link is judged the same from some number of steps on. -/
def LinkSettles (documents : List Document) (document : Document) (link : String)
    (value : Json) : Prop :=
  ∀ p, ∃ violations, ∀ᶠ steps in atTop,
    following documents steps document link value p = violations

open Classical in
/-- How a check follows links as often as it takes. -/
noncomputable def ultimately (documents : List Document) : Follow Document :=
  fun document link value p =>
    if h : LinkSettles documents document link value then (h p).choose else []

theorem LinkSettles.eventually_eq (h : LinkSettles documents document link value) (p : Position) :
    ∀ᶠ steps in atTop, following documents steps document link value p =
      ultimately documents document link value p := by
  rw [ultimately, dif_pos h]
  exact (h p).choose_spec

theorem isBlind_ultimately : IsBlind (ultimately documents) := by
  intro home link value p q hp
  by_cases h : LinkSettles documents home link value
  · obtain ⟨steps, hstep, hstep'⟩ := ((h.eventually_eq p).and (h.eventually_eq q)).exists
    rw [← hstep']
    exact isBlind_following steps home link value p q (hstep.trans hp)
  · rw [ultimately, dif_neg h]

/-! ### Checks that end -/

/-- Links followed so often, or as often as it takes. -/
noncomputable def followingOr (documents : List Document) : Option Nat → Follow Document
  | some steps => following documents steps
  | none => ultimately documents

theorem eventuallyConst_option_iff {results : Option Nat → List Violation} :
    EventuallyConst results (atTop.map some ⊔ pure none) ↔
      ∀ᶠ steps in atTop, results (some steps) = results none := by
  rw [eventuallyConst_iff_exists_eventuallyEq]
  constructor
  · rintro ⟨c, h⟩
    obtain ⟨hsome, hnone⟩ := eventually_sup.1 h
    exact (eventually_map.1 hsome).mono fun steps hs => hs.trans (eventually_pure.1 hnone).symm
  · intro h
    exact ⟨results none, eventually_sup.2 ⟨eventually_map.2 h, eventually_pure.2 rfl⟩⟩

theorem eventuallyConst_link
    (h : ∀ target, followed? documents document link = some target → ∀ p,
      EventuallyConst (fun i => check (followingOr documents i) target.1 p value target.2)
        (atTop.map some ⊔ pure none)) (p : Position) :
    EventuallyConst (fun i => followingOr documents i document link value p)
      (atTop.map some ⊔ pure none) := by
  have settles : LinkSettles documents document link value := fun p =>
    eventuallyConst_iff_exists_eventuallyEq.1 (settles_link (fun target hf p =>
      eventuallyConst_iff_exists_eventuallyEq.2
        ⟨_, eventuallyConst_option_iff.1 (h target hf p)⟩) p)
  exact eventuallyConst_option_iff.2 (settles.eventually_eq p)

/-- From some number of steps on, a check comes to what it ultimately comes to. -/
theorem IsSound.eventually_check_eq (hall : AreSound documents) {place : Place}
    (h : IsSound documents place) (value : Json) (p : Position) :
    ∀ᶠ steps in atTop, check (following documents steps) place.1 p value place.2 =
      check (ultimately documents) place.1 p value place.2 :=
  eventuallyConst_option_iff.1 (eventuallyConst_of_acc eventuallyConst_link (h.ends hall value) p)

/-! ### Links -/

theorem IsSound.of_followed? (hall : AreSound documents) (hd : document ∈ documents)
    {target : Place} (hf : followed? documents document link = some target) :
    IsSound documents target := by
  obtain ⟨hdocument, pointer, hp⟩ := mem_of_followed? hf
  have hmem : target.1 ∈ documents := hdocument.elim (fun heq => heq ▸ hd) id
  exact ⟨hmem, linksSatisfy_pointed? (hall _ hmem) hp⟩

/-- Ultimately, a link is judged as the schema is that it leads to. -/
theorem ultimately_eq (hall : AreSound documents) (hd : document ∈ documents) {target : Place}
    (hf : followed? documents document link = some target) (value : Json) (p : Position) :
    ultimately documents document link value p =
      check (ultimately documents) target.1 p value target.2 := by
  have sound := IsSound.of_followed? hall hd hf
  have settles : LinkSettles documents document link value := fun p =>
    eventuallyConst_iff_exists_eventuallyEq.1 (settles_link (fun other ho =>
      Option.some.inj (hf.symm.trans ho) ▸ settles_of_acc (sound.ends hall value)) p)
  have hlink := (tendsto_add_atTop_nat 1).eventually (settles.eventually_eq p)
  obtain ⟨steps, hstep, hcheck⟩ := (hlink.and (sound.eventually_check_eq hall value p)).exists
  rw [← hstep, ← hcheck]
  simp only [following, hf]

theorem judges_ultimately (hall : AreSound documents) (hd : document ∈ documents) :
    Judges (followed? documents) (ultimately documents) document where
  blind := isBlind_ultimately
  leads hf value := by
    rw [isBlind_ultimately.accepts_iff {} (Link.schema _),
      isBlind_ultimately.accepts_iff (({} : Position).under "$ref"),
      ← ultimately_eq hall hd hf]
    rfl

end Document

end Crosswalk
