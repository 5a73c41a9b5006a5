import Crosswalk.Proofs.Json.Links

/-!
# Links for the same value

Some keywords apply schemas to the value that is checked, and others to what is inside of it. From a
schema the first ones lead to its parts, and a check follows the links of these before it comes to
another value. `LinksInPlace P` says that all of them satisfy a property; it asks nothing of the
links under `properties` or `items`.
-/

namespace Crosswalk

namespace Json

/-- The keywords that list schemas for the value itself. -/
def combinators : List String := ["allOf", "anyOf", "oneOf"]

/-- A schema applies another one to the same value. -/
inductive Applies : Json → Json → Prop where
  | listed {fields : List (String × Json)} {keyword : String} {items : List Json} {schema : Json} :
    keyword ∈ combinators → (keyword, .array items) ∈ fields → schema ∈ items →
      Applies (.object fields) schema
  | negated {fields : List (String × Json)} {schema : Json} :
    ("not", schema) ∈ fields → Applies (.object fields) schema

/-- A schema has a link. -/
inductive Refers : Json → String → Prop where
  | own {fields : List (String × Json)} {link : String} :
    ("$ref", .string link) ∈ fields → Refers (.object fields) link

/-- A schema has a link, or a part of it has that applies to the same value. -/
inductive RefersInPlace : Json → String → Prop where
  | own {schema : Json} {link : String} : Refers schema link → RefersInPlace schema link
  | part {schema part : Json} {link : String} :
    Applies schema part → RefersInPlace part link → RefersInPlace schema link

/-- Every link that a check comes to with the same value satisfies the property. -/
def LinksInPlace (P : String → Prop) (schema : Json) : Prop :=
  ∀ link, RefersInPlace schema link → P link

variable {P Q : String → Prop} {schema part : Json}

/-! ### Links anywhere -/

theorem LinksSatisfy.refers (h : LinksSatisfy P schema) {link : String} (hl : Refers schema link) :
    P link := by
  obtain ⟨hm⟩ := hl
  exact (linksSatisfy_object.1 h _ hm).1 rfl link rfl

theorem LinksSatisfy.applies (h : LinksSatisfy P schema) (ha : Applies schema part) :
    LinksSatisfy P part := by
  rcases ha with ⟨-, hm, hs⟩ | hm
  · exact linksSatisfy_array.1 (linksSatisfy_object.1 h _ hm).2 _ hs
  · exact (linksSatisfy_object.1 h _ hm).2

theorem Applies.sizeOf_lt (h : Applies schema part) : sizeOf part < sizeOf schema := by
  rcases h with ⟨-, hm, hs⟩ | hm
  · have h1 := List.sizeOf_lt_of_mem hm
    have h2 := List.sizeOf_lt_of_mem hs
    simp only [Json.object.sizeOf_spec, Json.array.sizeOf_spec, Prod.mk.sizeOf_spec] at h1 h2 ⊢
    omega
  · have h1 := List.sizeOf_lt_of_mem hm
    simp only [Json.object.sizeOf_spec, Prod.mk.sizeOf_spec] at h1 ⊢
    omega

/-- What is true of all links is true of those for the same value. -/
theorem LinksSatisfy.inPlace (h : LinksSatisfy P schema) : LinksInPlace P schema := by
  intro link hl
  induction hl with
  | own hr => exact h.refers hr
  | part ha _ ih => exact ih (h.applies ha)

theorem LinksInPlace.mono (h : LinksInPlace P schema) (hPQ : ∀ link, P link → Q link) :
    LinksInPlace Q schema :=
  fun link hl => hPQ link (h link hl)

/-! ### Objects -/

/-- What one member of an object has to satisfy. -/
structure MemberInPlace (P : String → Prop) (member : String × Json) : Prop where
  link : member.1 = "$ref" → ∀ link, member.2 = .string link → P link
  listed : member.1 ∈ combinators → ∀ items, member.2 = .array items →
    ∀ item ∈ items, LinksInPlace P item
  negated : member.1 = "not" → LinksInPlace P member.2

/-- Members that all satisfy it. -/
def MembersInPlace (P : String → Prop) (fields : List (String × Json)) : Prop :=
  ∀ member ∈ fields, MemberInPlace P member

theorem linksInPlace_object {fields : List (String × Json)} :
    LinksInPlace P (.object fields) ↔ MembersInPlace P fields := by
  constructor
  · rintro h ⟨name, value⟩ hm
    refine ⟨?_, ?_, ?_⟩
    · rintro rfl link rfl
      exact h link (.own (.own hm))
    · rintro hk items rfl item hi link hl
      exact h link (.part (.listed hk hm hi) hl)
    · rintro rfl link hl
      exact h link (.part (.negated hm) hl)
  · rintro h link (⟨⟨hm⟩⟩ | ⟨⟨hk, hm, hs⟩ | hm, hl⟩)
    · exact (h _ hm).link rfl link rfl
    · exact (h _ hm).listed hk _ rfl _ hs link hl
    · exact (h _ hm).negated rfl link hl

/-- The keywords that matter for the value itself. -/
def inPlaceKeywords : List String := "$ref" :: "not" :: combinators

namespace MemberInPlace

theorem of_plain {name : String} (value : Json) (h : name ∉ inPlaceKeywords) :
    MemberInPlace P (name, value) := by
  simp only [inPlaceKeywords, List.mem_cons, not_or] at h
  exact ⟨fun hn => absurd hn h.1, fun hn => absurd hn h.2.2, fun hn => absurd hn h.2.1⟩

theorem of_list {name : String} {items : List Json} (hk : name ∈ combinators)
    (h : ∀ item ∈ items, LinksInPlace P item) : MemberInPlace P (name, .array items) := by
  refine ⟨?_, ?_, ?_⟩
  · rintro rfl
    exact absurd hk (by decide)
  · rintro - _ ⟨⟩
    exact h
  · rintro rfl
    exact absurd hk (by decide)

end MemberInPlace

namespace MembersInPlace

theorem nil : MembersInPlace P [] := fun _ h => absurd h List.not_mem_nil

theorem singleton {member : String × Json} (h : MemberInPlace P member) :
    MembersInPlace P [member] :=
  List.forall_mem_singleton.2 h

theorem append {first rest : List (String × Json)} (h : MembersInPlace P first)
    (hr : MembersInPlace P rest) : MembersInPlace P (first ++ rest) :=
  List.forall_mem_append.2 ⟨h, hr⟩

theorem insert {fields : Table String Json} (h : MembersInPlace P fields) {name : String}
    {value : Json} (hv : MemberInPlace P (name, value)) :
    MembersInPlace P (Table.insert fields name value) :=
  Table.forall_mem_insert h hv

theorem withKeyword {fields : Table String Json} (h : MembersInPlace P fields) {name : String}
    (hn : name ∉ inPlaceKeywords) (value : Option Json) :
    MembersInPlace P (Datatype.withKeyword fields name value) := by
  cases value with
  | none => exact h
  | some v => exact h.insert (.of_plain v hn)

theorem ofFields {fields : List (String × Json)} (h : MembersInPlace P fields) :
    LinksInPlace P (.ofFields fields) :=
  linksInPlace_object.2 fun member hm => h member (Table.mem_ofList hm)

end MembersInPlace

theorem linksInPlace_link {link : String} (h : P link) : LinksInPlace P (Link.schema link) :=
  (isSchema_link h).links.inPlace

/-- An object that only lists schemas for the value itself. -/
theorem linksInPlace_list {name : String} {items : List Json} (hk : name ∈ combinators)
    (h : ∀ item ∈ items, LinksInPlace P item) :
    LinksInPlace P (.object [(name, .array items)]) :=
  linksInPlace_object.2 (MembersInPlace.singleton (.of_list hk h))

end Json

end Crosswalk
