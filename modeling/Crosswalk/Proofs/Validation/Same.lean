import Crosswalk.Proofs.Conversion.Links
import Crosswalk.Proofs.Validation.Blind

/-!
# Schemas that accept the same

Schemas are put together from others: as the items of an array, as alternatives, with further
keywords. What is put together in the same way from schemas that accept the same accepts the same
again, though the schemas differ and stand in different documents.
-/

namespace Crosswalk

open Json Check

variable {Home : Type} {follow : Follow Home} {home home' : Home}

namespace Check

section

variable (hb : IsBlind follow)
include hb

theorem IsBlind.passes_whole {whole whole' : Table String Json}
    (hd : declared whole = declared whole') {value : Json} {member : String × Json} :
    Passes follow home value whole member ↔ Passes follow home value whole' member :=
  forall_congr' fun p => checkKeywords_alike
    (membersSatisfy_of_forall hb.followsAlike [member]) (alikeFields_refl [member]) hd value p p

/-- A keyword that is inserted has to pass as well. -/
theorem IsBlind.accepts_insert_iff {fields : Table String Json} {name : String}
    {bound value : Json} (hr : reference? fields = none) (hn : name ∉ Table.keys fields)
    (hlink : name ≠ "$ref") (hp : name ≠ "properties") :
    Accepts follow home value (.object (Table.insert fields name bound)) ↔
      Passes follow home value fields (name, bound) ∧
        Accepts follow home value (.object fields) := by
  have hd : declared (Table.insert fields name bound) = declared fields := by
    rw [declared, declared, Table.find?_insert_of_ne _ _ hp.symm]
  have hr' : reference? (Table.insert fields name bound) = none := by
    rw [reference?, Table.find?_insert_of_ne _ _ hlink.symm]
    exact hr
  rw [accepts_object_iff hr', accepts_object_iff hr]
  constructor
  · intro h
    refine ⟨(hb.passes_whole hd).1 (h _ ((Table.mem_insert_iff hn).2 (.inl rfl))), ?_⟩
    exact fun member hm => (hb.passes_whole hd).1 (h _ ((Table.mem_insert_iff hn).2 (.inr hm)))
  · rintro ⟨h, hrest⟩ member hm
    rw [hb.passes_whole hd]
    rcases (Table.mem_insert_iff hn).1 hm with rfl | hm
    · exact h
    · exact hrest member hm

end

/-- The fields make schemas that accept the same, and none of the names is taken in either. -/
structure SameFields (follow : Follow Home) (home home' : Home) (free : List String)
    (fields fields' : Table String Json) : Prop where
  same : AcceptsSame follow home home' (.object fields) (.object fields')
  noLink : "$ref" ∉ Table.keys fields ∧ "$ref" ∉ Table.keys fields'
  free : ∀ name ∈ free, name ∉ Table.keys fields ∧ name ∉ Table.keys fields'

theorem reference?_of_notMem {fields : Table String Json} (h : "$ref" ∉ Table.keys fields) :
    reference? fields = none := by
  rw [reference?, Table.find?_eq_none_iff.2 h]
  rfl

namespace SameFields

variable {fields fields' : Table String Json} {name : String} {free : List String}

theorem mono {others : List String} (h : SameFields follow home home' free fields fields')
    (hsub : others ⊆ free) : SameFields follow home home' others fields fields' :=
  ⟨h.same, h.noLink, fun name hn => h.free name (hsub hn)⟩

/-- The same keyword is inserted into both. -/
theorem insert (h : SameFields follow home home' (name :: free) fields fields')
    (hb : IsBlind follow) (hn : name ∉ free) (hk : Complains name) (hlink : name ≠ "$ref")
    (hp : name ≠ "properties") (bound : Json) :
    SameFields follow home home' free (Table.insert fields name bound)
      (Table.insert fields' name bound) := by
  have hname := h.free name List.mem_cons_self
  have hfree : ∀ other, other ≠ name →
      other ∉ Table.keys fields ∧ other ∉ Table.keys fields' →
      other ∉ Table.keys (Table.insert fields name bound) ∧
        other ∉ Table.keys (Table.insert fields' name bound) := by
    intro other hne hother
    rw [Table.keys_insert, Table.keys_insert]
    tauto
  refine ⟨fun value => ?_, hfree _ hlink.symm h.noLink, fun other ho => ?_⟩
  · rw [hb.accepts_insert_iff (reference?_of_notMem h.noLink.1) hname.1 hlink hp,
      hb.accepts_insert_iff (reference?_of_notMem h.noLink.2) hname.2 hlink hp,
      hk.passes_iff, hk.passes_iff, h.same value]
  · exact hfree other (fun heq => hn (heq ▸ ho)) (h.free other (List.mem_cons_of_mem _ ho))

theorem withKeyword (h : SameFields follow home home' (name :: free) fields fields')
    (hb : IsBlind follow) (hn : name ∉ free) (hk : Complains name) (hlink : name ≠ "$ref")
    (hp : name ≠ "properties") (bound : Option Json) :
    SameFields follow home home' free (Datatype.withKeyword fields name bound)
      (Datatype.withKeyword fields' name bound) := by
  cases bound with
  | none => exact h.mono (List.subset_cons_self _ _)
  | some bound => exact h.insert hb hn hk hlink hp bound

end SameFields

section

variable (hb : IsBlind follow)
include hb

/-! ### Arrays and alternatives -/

omit hb in
theorem ofList_array (item : Json) :
    Table.ofList [("type", Json.string "array"), ("items", item)] =
      [("items", item), ("type", .string "array")] := by
  have hlt : "items" < "type" := by decide
  simp [Table.ofList, Table.insert_cons, hlt]

/-- Arrays of items that are judged the same, with the same bounds. -/
theorem IsBlind.sameFields_array {a b : Json} (h : AcceptsSame follow home home' a b)
    {free : List String} (hi : "items" ∉ free) (ht : "type" ∉ free) :
    SameFields follow home home' free (Table.ofList [("type", .string "array"), ("items", a)])
      (Table.ofList [("type", .string "array"), ("items", b)]) := by
  rw [ofList_array, ofList_array]
  refine ⟨fun value => ?_, by simp [Table.keys], fun name hn => ?_⟩
  · rw [accepts_object_iff rfl, accepts_object_iff rfl]
    simp only [List.forall_mem_cons, List.not_mem_nil, false_implies, implies_true, and_true,
      passes_array_iff]
    refine and_congr_left ?_
    rintro ⟨items, rfl⟩
    rw [passes_items_iff hb, passes_items_iff hb]
    exact forall₂_congr fun item _ => h item
  · have hni : name ≠ "items" := fun heq => hi (heq ▸ hn)
    have hnt : name ≠ "type" := fun heq => ht (heq ▸ hn)
    simp [Table.keys, hni, hnt]

theorem IsBlind.accepts_anyOf_iff {schemas : List Json} {value : Json} :
    Accepts follow home value (.object [("anyOf", .array schemas)]) ↔
      ∃ schema ∈ schemas, Accepts follow home value schema := by
  rw [accepts_object_iff rfl, List.forall_mem_singleton, passes_anyOf_iff hb]

theorem IsBlind.acceptsSame_anyOf {as bs : List Json}
    (h : List.Forall₂ (AcceptsSame follow home home') as bs) :
    AcceptsSame follow home home' (.object [("anyOf", .array as)])
      (.object [("anyOf", .array bs)]) := by
  intro value
  rw [hb.accepts_anyOf_iff, hb.accepts_anyOf_iff]
  induction h with
  | nil => simp
  | cons hab _ ih => simp only [List.exists_mem_cons_iff, ih, hab value]

theorem IsBlind.accepts_allOf_iff {schemas : List Json} {value : Json} :
    Accepts follow home value (.object [("allOf", .array schemas)]) ↔
      ∀ schema ∈ schemas, Accepts follow home value schema := by
  rw [accepts_object_iff rfl, List.forall_mem_singleton, passes_allOf_iff hb]

end

end Check

/-! ### Slots -/

section

variable (hb : IsBlind follow)
include hb

theorem Slot.accepts_eitherItem_iff {a b : Slot} {value : Json} :
    Accepts follow home value (a.eitherItem b) ↔
      Accepts follow home value a.item ∨ Accepts follow home value b.item := by
  unfold Slot.eitherItem
  split
  · next h => rw [← hb.acceptsSame_of_alike h value, or_self]
  · simp [hb.accepts_anyOf_iff]

/-- Slots of the same bounds whose items accept the same accept the same. -/
theorem Slot.acceptsSame_schema {a b : Slot} (h : AcceptsSame follow home home' a.item b.item)
    (hbounds : a.bounds = b.bounds) : AcceptsSame follow home home' a.schema b.schema := by
  have array := hb.sameFields_array h (show "items" ∉ ["minItems", "maxItems"] by simp) (by simp)
  have least : ∀ bound : Json, SameFields follow home home' ["maxItems"]
      (if b.bounds.isRequired then Table.insert (Table.ofList
          [("type", .string "array"), ("items", a.item)]) "minItems" bound
        else Table.ofList [("type", .string "array"), ("items", a.item)])
      (if b.bounds.isRequired then Table.insert (Table.ofList
          [("type", .string "array"), ("items", b.item)]) "minItems" bound
        else Table.ofList [("type", .string "array"), ("items", b.item)]) := by
    intro bound
    split
    · exact array.insert hb (by simp) (fun _ _ _ _ _ _ => rfl) (by simp) (by simp) bound
    · exact array.mono (List.subset_cons_self _ _)
  unfold Slot.schema
  simp only [hbounds]
  split
  · cases b.bounds.most with
    | unbounded => exact (least _).same
    | bounded n =>
        exact ((least _).insert hb (by simp) (fun _ _ _ _ _ _ => rfl) (by simp) (by simp) _).same
  · exact h

end

/-! ### Schemas with further keywords -/

/-- The keywords that are put beside the schema of a type. -/
def besideKeywords : List String := ["const", "default", "description"]

/-- They look at nothing but the value. -/
theorem complains_of_beside {name : String} (h : name ∈ besideKeywords) : Complains name := by
  have hname : name = "const" ∨ name = "default" ∨ name = "description" := by
    simpa [besideKeywords] using h
  rcases hname with rfl | rfl | rfl <;> intro _ _ _ _ _ _ _ <;> rfl

theorem ne_of_beside {name : String} (h : name ∈ besideKeywords) :
    name ≠ "$ref" ∧ name ≠ "properties" := by
  constructor <;> rintro rfl <;> exact absurd h (by decide)

/-- Schemas of one type, written in two documents. They stay so with the same keywords beside
them. -/
inductive SameType (follow : Follow Home) (home home' : Home) : Json → Json → Prop where
  | equal {fields : Table String Json} (h : ∀ P, MembersAre P fields) :
    SameType follow home home' (.object fields) (.object fields)
  | links {link link' : String}
    (h : AcceptsSame follow home home' (Link.schema link) (Link.schema link')) :
    SameType follow home home' (Link.schema link) (Link.schema link')
  | fields {fields fields' : Table String Json}
    (h : SameFields follow home home' besideKeywords fields fields') :
    SameType follow home home' (.object fields) (.object fields')

theorem SameType.acceptsSame {a b : Json} (h : SameType follow home home' a b) :
    AcceptsSame follow home home' a b := by
  cases h with
  | equal h => exact acceptsSame_of_links (fun P => linksSatisfy_object.2 (h P)) home home'
  | links h => exact h
  | fields h => exact h.same

theorem SameType.described {a b : Json} (h : SameType follow home home' a b) : a ≠ .bool true := by
  cases h <;> exact Json.noConfusion

/-- Schemas of what an element or attribute holds, written in two documents. None of them is the
schema of anything at all that stands for the members of a group. -/
structure SameItem (follow : Follow Home) (home home' : Home) (a b : Json) : Prop where
  same : AcceptsSame follow home home' a b
  described : a ≠ .bool true

section

variable (hb : IsBlind follow)
include hb

theorem SameFields.foldl_insert {extras : List (String × Json)}
    (hextras : ∀ e ∈ extras, e.1 ∈ besideKeywords) (hn : (extras.map (·.1)).Nodup)
    {fields fields' : Table String Json}
    (h : SameFields follow home home' (extras.map (·.1)) fields fields') :
    AcceptsSame follow home home'
      (.object (extras.foldl (fun fields (name, value) => Table.insert fields name value) fields))
      (.object
        (extras.foldl (fun fields (name, value) => Table.insert fields name value) fields')) := by
  induction extras generalizing fields fields' with
  | nil => exact h.same
  | cons e rest ih =>
      obtain ⟨name, bound⟩ := e
      rw [List.forall_mem_cons] at hextras
      rw [List.map_cons, List.nodup_cons] at hn
      obtain ⟨hlink, hproperties⟩ := ne_of_beside hextras.1
      exact ih hextras.2 hn.2
        (h.insert hb hn.1 (complains_of_beside hextras.1) hlink hproperties bound)

/-- Documentation and literals, at most one of each. -/
structure AreBeside (extras : List (String × Json)) : Prop where
  names : ∀ e ∈ extras, e.1 ∈ besideKeywords
  nodup : (extras.map (·.1)).Nodup
  links : ∀ P, MembersAre P extras

omit hb in
theorem contains_link_of_notMem {fields : Table String Json} (h : "$ref" ∉ Table.keys fields) :
    Table.contains fields "$ref" = false :=
  Bool.eq_false_iff.2 fun hc => h (Table.contains_iff.1 hc)

theorem SameType.withKeywords {a b : Json} (h : SameType follow home home' a b)
    {extras : List (String × Json)} (he : AreBeside extras) :
    SameItem follow home home' (Conversion.withKeywords a extras)
      (Conversion.withKeywords b extras) := by
  by_cases hnil : extras.isEmpty = true
  · unfold Conversion.withKeywords
    rw [if_pos hnil, if_pos hnil]
    exact ⟨h.acceptsSame, h.described⟩
  refine ⟨?_, ?_⟩
  · cases h with
    | equal h =>
        exact acceptsSame_of_links (fun P => (Conversion.isSchema_withKeywords
          (isSchema_object.2 (h P)) (he.links P)).links) home home'
    | @links link link' h =>
        have hall : SameFields follow home home' (extras.map (·.1))
            [("allOf", .array [Link.schema link])] [("allOf", .array [Link.schema link'])] := by
          refine ⟨fun value => ?_, by simp [Table.keys], fun name hn => ?_⟩
          · rw [hb.accepts_allOf_iff, hb.accepts_allOf_iff]
            simpa using h value
          · obtain ⟨e, hmem, rfl⟩ := List.mem_map.1 hn
            have := he.names e hmem
            have hne : e.1 ≠ "allOf" := by
              rintro heq
              rw [heq] at this
              simp [besideKeywords] at this
            simp [Table.keys, hne]
        unfold Conversion.withKeywords
        rw [if_neg hnil, if_neg hnil]
        exact SameFields.foldl_insert hb he.names he.nodup hall
    | @fields fields fields' h =>
        unfold Conversion.withKeywords
        rw [if_neg hnil, if_neg hnil]
        simp only [contains_link_of_notMem h.noLink.1, contains_link_of_notMem h.noLink.2,
          Bool.false_eq_true, if_false]
        refine SameFields.foldl_insert hb he.names he.nodup (h.mono fun name hn => ?_)
        obtain ⟨e, hmem, rfl⟩ := List.mem_map.1 hn
        exact he.names e hmem
  · unfold Conversion.withKeywords
    rw [if_neg hnil]
    exact Json.noConfusion

theorem SameItem.orNull {a b : Json} (h : SameItem follow home home' a b) :
    SameItem follow home home' (Conversion.orNull a) (Conversion.orNull b) := by
  refine ⟨hb.acceptsSame_anyOf (.cons h.same (.cons ?_ .nil)), Json.noConfusion⟩
  exact acceptsSame_of_links (fun P => linksSatisfy_object.2 (MembersAre.cons
    (.of_ne (by simp) (linksSatisfy_string _)) .nil)) home home'

theorem SameItem.eitherItem {a b a' b' : Slot}
    (h : SameItem follow home home' a.item a'.item)
    (h' : SameItem follow home home' b.item b'.item) :
    SameItem follow home home' (a.eitherItem b) (a'.eitherItem b') := by
  refine ⟨fun value => ?_, ?_⟩
  · rw [Slot.accepts_eitherItem_iff hb, Slot.accepts_eitherItem_iff hb, h.same value,
      h'.same value]
  · unfold Slot.eitherItem
    split
    · exact h.described
    · exact Json.noConfusion

end

/-! ### What keywords beside a schema ask for -/

namespace Check

/-- The schema of a type: a link, or keywords other than those that are put beside it. -/
inductive IsTypeSchema : Json → Prop where
  | link (link : String) : IsTypeSchema (Link.schema link)
  | fields {fields : Table String Json} (h : ∀ name ∈ Table.keys fields,
      name ∉ "$ref" :: besideKeywords) : IsTypeSchema (.object fields)

section

variable (hb : IsBlind follow)
include hb

theorem IsBlind.accepts_foldl_insert_iff {extras : List (String × Json)}
    (hextras : ∀ e ∈ extras, e.1 ∈ besideKeywords) (hn : (extras.map (·.1)).Nodup) {value : Json} :
    ∀ {fields : Table String Json}, "$ref" ∉ Table.keys fields →
      (∀ e ∈ extras, e.1 ∉ Table.keys fields) →
      (Accepts follow home value (.object
          (extras.foldl (fun fields (name, value) => Table.insert fields name value) fields)) ↔
        Accepts follow home value (.object fields) ∧
          ∀ e ∈ extras, complaints e.1 e.2 value = []) := by
  induction extras with
  | nil => simp
  | cons e rest ih =>
      obtain ⟨name, bound⟩ := e
      intro fields hlink hfree
      simp only [List.forall_mem_cons] at hextras hfree
      rw [List.map_cons, List.nodup_cons] at hn
      have hne := ne_of_beside hextras.1
      rw [List.foldl_cons, ih hextras.2 hn.2, List.forall_mem_cons,
        hb.accepts_insert_iff (reference?_of_notMem hlink) hfree.1 hne.1 hne.2,
        Complains.passes_iff (complains_of_beside hextras.1)]
      · tauto
      · rw [Table.keys_insert]
        exact fun h => h.elim (fun h => hne.1 h.symm) hlink
      · intro other ho hmem
        rcases (Table.keys_insert _ _ _ _).1 hmem with heq | hmem
        · exact hn.1 (List.mem_map.2 ⟨other, ho, heq⟩)
        · exact hfree.2 other ho hmem

/-- A schema with keywords beside it accepts what it accepts without them, unless one of them
complains. -/
theorem IsBlind.accepts_withKeywords_iff {schema : Json} (hs : IsTypeSchema schema)
    {extras : List (String × Json)} (he : AreBeside extras) {value : Json} :
    Accepts follow home value (Conversion.withKeywords schema extras) ↔
      Accepts follow home value schema ∧ ∀ e ∈ extras, complaints e.1 e.2 value = [] := by
  unfold Conversion.withKeywords
  by_cases hnil : extras.isEmpty = true
  · rw [if_pos hnil, List.isEmpty_iff.1 hnil]
    simp
  · rw [if_neg hnil]
    cases hs with
    | link link =>
        have hall : ∀ name ∈ besideKeywords, name ∉ Table.keys
            [("allOf", Json.array [Link.schema link])] := by
          simp [besideKeywords, Table.keys]
        exact (hb.accepts_foldl_insert_iff he.names he.nodup (by simp [Table.keys])
          fun e hm => hall _ (he.names e hm)).trans
            (and_congr_left' (by simp [hb.accepts_allOf_iff]))
    | fields h =>
        have hlink := fun hm => h "$ref" hm List.mem_cons_self
        simp only [contains_link_of_notMem hlink, Bool.false_eq_true, if_false]
        exact hb.accepts_foldl_insert_iff he.names he.nodup hlink fun e hm hk =>
          h _ hk (List.mem_cons_of_mem _ (he.names e hm))

end

end Check

end Crosswalk
