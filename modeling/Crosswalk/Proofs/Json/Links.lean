import Crosswalk.Document
import Crosswalk.Proofs.Table

/-!
# The links in a value

`LinksSatisfy P` says that every link in a value satisfies a property, wherever in the value it
stands. A link is the string of a member `$ref`. What stands in such a member and is no string is
searched like any other value, so that a property that happens to have this name does no harm as
long as its schema is no string: `IsSchema P` asks for this as well.
-/

namespace Crosswalk

namespace Json

mutual

/-- Every link in the value satisfies the property. -/
def LinksSatisfy (P : String → Prop) : Json → Prop
  | .object fields => MembersSatisfy P fields
  | .array items => ItemsSatisfy P items
  | _ => True

def MembersSatisfy (P : String → Prop) : List (String × Json) → Prop
  | [] => True
  | (name, value) :: rest =>
    (name = "$ref" → ∀ link, value = .string link → P link) ∧ LinksSatisfy P value ∧
      MembersSatisfy P rest

def ItemsSatisfy (P : String → Prop) : List Json → Prop
  | [] => True
  | item :: rest => LinksSatisfy P item ∧ ItemsSatisfy P rest

end

/-- What one member of an object has to satisfy: a string is a link if its name is that of links. -/
def MemberSatisfies (P : String → Prop) (member : String × Json) : Prop :=
  (member.1 = "$ref" → ∀ link, member.2 = .string link → P link) ∧ LinksSatisfy P member.2

/-- Every link satisfies the property, and the value can stand in a member of any name. -/
structure IsSchema (P : String → Prop) (value : Json) : Prop where
  links : LinksSatisfy P value
  noText : ∀ text, value ≠ .string text

variable {P Q : String → Prop}

theorem IsSchema.member {value : Json} (h : IsSchema P value) (name : String) :
    MemberSatisfies P (name, value) :=
  ⟨fun _ link hv => absurd hv (h.noText link), h.links⟩

theorem MemberSatisfies.of_ne {name : String} {value : Json} (hn : name ≠ "$ref")
    (h : LinksSatisfy P value) : MemberSatisfies P (name, value) :=
  ⟨fun heq => absurd heq hn, h⟩

/-- Members whose links all satisfy the property. -/
def MembersAre (P : String → Prop) (fields : List (String × Json)) : Prop :=
  ∀ member ∈ fields, MemberSatisfies P member

namespace MembersAre

theorem nil : MembersAre P [] := fun _ h => absurd h List.not_mem_nil

theorem cons {member : String × Json} {rest : List (String × Json)} (h : MemberSatisfies P member)
    (hr : MembersAre P rest) : MembersAre P (member :: rest) :=
  List.forall_mem_cons.2 ⟨h, hr⟩

theorem append {first rest : List (String × Json)} (h : MembersAre P first)
    (hr : MembersAre P rest) : MembersAre P (first ++ rest) :=
  List.forall_mem_append.2 ⟨h, hr⟩

theorem ofList {fields : List (String × Json)} (h : MembersAre P fields) :
    MembersAre P (Table.ofList fields) := fun member hm => h member (Table.mem_ofList hm)

end MembersAre

theorem linksSatisfy_object {fields : List (String × Json)} :
    LinksSatisfy P (.object fields) ↔ MembersAre P fields := by
  change MembersSatisfy P fields ↔ _
  induction fields with
  | nil => simp [MembersSatisfy, MembersAre]
  | cons member rest ih =>
      rw [MembersAre, List.forall_mem_cons, ← MembersAre, ← ih, MembersSatisfy, MemberSatisfies,
        and_assoc]

theorem linksSatisfy_array {items : List Json} :
    LinksSatisfy P (.array items) ↔ ∀ item ∈ items, LinksSatisfy P item := by
  change ItemsSatisfy P items ↔ _
  induction items with
  | nil => simp [ItemsSatisfy]
  | cons item rest ih => rw [List.forall_mem_cons, ← ih, ItemsSatisfy]

@[simp] theorem linksSatisfy_null : LinksSatisfy P .null := True.intro

@[simp] theorem linksSatisfy_bool (b : Bool) : LinksSatisfy P (.bool b) := True.intro

@[simp] theorem linksSatisfy_number (n : Number) : LinksSatisfy P (.number n) := True.intro

@[simp] theorem linksSatisfy_nat (n : Nat) : LinksSatisfy P (.nat n) := True.intro

@[simp] theorem linksSatisfy_string (s : String) : LinksSatisfy P (.string s) := True.intro

@[simp] theorem linksSatisfy_strings (items : List String) : LinksSatisfy P (.strings items) :=
  linksSatisfy_array.2 (by simp)

theorem isSchema_object {fields : List (String × Json)} :
    IsSchema P (.object fields) ↔ MembersAre P fields :=
  ⟨fun h => linksSatisfy_object.1 h.links,
    fun h => ⟨linksSatisfy_object.2 h, fun _ => Json.noConfusion⟩⟩

/-- An object of given members has no links but theirs. -/
theorem isSchema_ofFields {fields : List (String × Json)}
    (h : MembersAre P fields) : IsSchema P (.ofFields fields) :=
  isSchema_object.2 h.ofList

theorem isSchema_link {link : String} (h : P link) : IsSchema P (Link.schema link) := by
  refine isSchema_object.2 fun member hm => ?_
  obtain rfl := List.mem_singleton.1 hm
  exact ⟨fun _ other ho => Json.string.inj ho ▸ h, True.intro⟩

mutual

theorem linksSatisfy_of_forall (h : ∀ link, P link) : ∀ value : Json, LinksSatisfy P value
  | .object fields => membersSatisfy_of_forall h fields
  | .array items => itemsSatisfy_of_forall h items
  | .null => True.intro
  | .bool _ => True.intro
  | .number _ => True.intro
  | .string _ => True.intro

theorem membersSatisfy_of_forall (h : ∀ link, P link) :
    ∀ fields : List (String × Json), MembersSatisfy P fields
  | [] => True.intro
  | (_, value) :: rest =>
    ⟨fun _ link _ => h link, linksSatisfy_of_forall h value, membersSatisfy_of_forall h rest⟩

theorem itemsSatisfy_of_forall (h : ∀ link, P link) : ∀ items : List Json, ItemsSatisfy P items
  | [] => True.intro
  | item :: rest => ⟨linksSatisfy_of_forall h item, itemsSatisfy_of_forall h rest⟩

end

mutual

theorem LinksSatisfy.mono (hPQ : ∀ link, P link → Q link) : ∀ {value : Json},
    LinksSatisfy P value → LinksSatisfy Q value
  | .object _, h => MembersSatisfy.mono hPQ h
  | .array _, h => ItemsSatisfy.mono hPQ h
  | .null, _ => True.intro
  | .bool _, _ => True.intro
  | .number _, _ => True.intro
  | .string _, _ => True.intro

theorem MembersSatisfy.mono (hPQ : ∀ link, P link → Q link) : ∀ {fields : List (String × Json)},
    MembersSatisfy P fields → MembersSatisfy Q fields
  | [], _ => True.intro
  | (_, _) :: _, ⟨hl, hv, hr⟩ =>
    ⟨fun hn link hs => hPQ link (hl hn link hs), hv.mono hPQ, MembersSatisfy.mono hPQ hr⟩

theorem ItemsSatisfy.mono (hPQ : ∀ link, P link → Q link) : ∀ {items : List Json},
    ItemsSatisfy P items → ItemsSatisfy Q items
  | [], _ => True.intro
  | _ :: _, ⟨hi, hr⟩ => ⟨hi.mono hPQ, ItemsSatisfy.mono hPQ hr⟩

end

theorem IsSchema.mono {value : Json} (h : IsSchema P value) (hPQ : ∀ link, P link → Q link) :
    IsSchema Q value :=
  ⟨h.links.mono hPQ, h.noText⟩

mutual

/-- What a search finds in a value are the links of which a property was asked. -/
theorem linksIn_satisfies : ∀ {value : Json}, LinksSatisfy P value → ∀ (path : String),
    ∀ link ∈ Document.linksIn path value, P link.2
  | .object fields, h, path => linksInFields_satisfies h path
  | .array items, h, path => linksInItems_satisfies h path 0
  | .null, _, _ => by simp [Document.linksIn]
  | .bool _, _, _ => by simp [Document.linksIn]
  | .number _, _, _ => by simp [Document.linksIn]
  | .string _, _, _ => by simp [Document.linksIn]

theorem linksInFields_satisfies : ∀ {fields : List (String × Json)}, MembersSatisfy P fields →
    ∀ (path : String), ∀ link ∈ Document.linksInFields path fields, P link.2
  | [], _, _ => by simp [Document.linksInFields]
  | (name, value) :: rest, h, path => by
      rw [MembersSatisfy] at h
      intro link hl
      by_cases hlink : name = "$ref" ∧ ∃ text, value = .string text
      · obtain ⟨rfl, text, rfl⟩ := hlink
        rcases List.mem_cons.1 hl with rfl | hl
        · exact h.1 rfl text rfl
        · exact linksInFields_satisfies h.2.2 path link hl
      · rw [Document.linksInFields.eq_3 _ _ _ _ fun text hn hv => hlink ⟨hn, text, hv⟩] at hl
        rcases List.mem_append.1 hl with hl | hl
        · exact linksIn_satisfies h.2.1 _ link hl
        · exact linksInFields_satisfies h.2.2 path link hl

theorem linksInItems_satisfies : ∀ {items : List Json}, ItemsSatisfy P items →
    ∀ (path : String) (position : Nat), ∀ link ∈ Document.linksInItems path position items, P link.2
  | [], _, _, _ => by simp [Document.linksInItems]
  | item :: rest, h, path, position => by
      rw [ItemsSatisfy] at h
      intro link hl
      rw [Document.linksInItems] at hl
      rcases List.mem_append.1 hl with hl | hl
      · exact linksIn_satisfies h.1 _ link hl
      · exact linksInItems_satisfies h.2 path _ link hl

end

end Json

end Crosswalk
