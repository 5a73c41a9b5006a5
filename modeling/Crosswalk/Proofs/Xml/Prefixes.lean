import Crosswalk.QName
import Crosswalk.Text.Basic
import Crosswalk.Xml.Tree
import Mathlib.Data.List.Forall2

/-!
# Prefixes and their bindings

The prefix `xml` stands for its namespace everywhere, without being bound. A document that has a tree
binds it to nothing else, and binds no other prefix to that namespace, nor the default one.

Two trees differ in nothing but prefixes if their elements are the same, but for the bindings in
scope, and their attributes are, but for those of a schema that hold names: these may be written with
other prefixes, as long as they denote the same names where they stand.
-/

namespace Crosswalk

/-! ### Bindings in a document -/

namespace Xml

/-- Neither the prefix `xml` is bound nor anything to its namespace. -/
def AreOrdinary (bindings : List (String × String)) : Prop :=
  ∀ b ∈ bindings, b.1 ≠ "xml" ∧ b.2 ≠ xmlSpace

mutual

/-- The bindings in scope at an element, and at every element in it. -/
def Element.scopes : Element → List (List (String × String))
  | ⟨_, _, _, bindings, children⟩ => bindings :: scopesOf children

/-- The bindings in scope at the elements of a child. -/
def Node.scopes : Node → List (List (String × String))
  | .element e => e.scopes
  | .text _ => []

/-- The bindings in scope at the elements among some children and in them. -/
def scopesOf : List Node → List (List (String × String))
  | [] => []
  | n :: rest => n.scopes ++ scopesOf rest

end

theorem scopesOf_append (first rest : List Node) :
    scopesOf (first ++ rest) = scopesOf first ++ scopesOf rest := by
  induction first with
  | nil => rfl
  | cons n first ih => rw [List.cons_append, scopesOf, ih, scopesOf, List.append_assoc]

namespace AreOrdinary

variable {bindings own outer : List (String × String)} {p space : String}

/-- What is looked up is neither the prefix `xml` nor its namespace. -/
theorem of_lookup (h : AreOrdinary bindings) (hl : bindings.lookup p = some space) :
    p ≠ "xml" ∧ space ≠ xmlSpace := by
  induction bindings with
  | nil => exact nomatch hl
  | cons b rest ih =>
      obtain ⟨q, uri⟩ := b
      rw [AreOrdinary, List.forall_mem_cons] at h
      rw [List.lookup_cons] at hl
      split at hl
      · next heq =>
          obtain rfl := Option.some.inj hl
          obtain rfl : p = q := eq_of_beq heq
          exact h.1
      · exact ih h.2 hl

theorem withOuter (h : AreOrdinary own) (ho : AreOrdinary outer) :
    AreOrdinary (withOuter own outer) :=
  List.forall_mem_append.2 ⟨h, fun b hb => ho b ((List.mem_filter.1 hb).1)⟩

/-- The bindings that attributes declare are ordinary. -/
theorem declared? : ∀ (attributes : List (Tag × String)) {read : List (String × String)},
    AreOrdinary read → declared? read attributes = some own → AreOrdinary own
  | [], read, h, hd => by
      obtain rfl := Option.some.inj hd
      exact fun b hb => h b (List.mem_reverse.1 hb)
  | (tag, value) :: rest, read, h, hd => by
      have added : ∀ {p : String}, p ≠ "xml" → value ≠ xmlSpace →
          AreOrdinary ((p, value) :: read) := fun hp hv => List.forall_mem_cons.2 ⟨⟨hp, hv⟩, h⟩
      unfold Xml.declared? at hd
      split at hd
      · split at hd
        · exact nomatch hd
        · next hallowed =>
            split at hd
            · exact nomatch hd
            · split at hd
              · exact declared? rest h hd
              · next hv =>
                  -- A value other than the namespace of `xml` goes with another name.
                  have hname : tag.name ≠ "xml" := by
                    intro heq
                    refine hallowed (.inr ?_)
                    simp [heq, hv]
                  exact declared? rest (added hname hv) hd
      · split at hd
        · split at hd
          · exact nomatch hd
          · next hv =>
              exact declared? rest (added (by decide) fun heq => hv (.inl heq)) hd
        · exact declared? rest h hd

end AreOrdinary

/-! ### Trees -/

/-- All bindings in the element that this one becomes are ordinary. -/
def Open.IsOrdinary (o : Open) : Prop := ∀ bindings ∈ o.close.scopes, AreOrdinary bindings

theorem Open.scopes_close (o : Open) :
    o.close.scopes = o.bindings :: scopesOf o.children.reverse := rfl

namespace Open.IsOrdinary

variable {o : Open}

theorem bindings (h : o.IsOrdinary) : AreOrdinary o.bindings :=
  h _ (o.scopes_close ▸ List.mem_cons_self)

theorem add (h : o.IsOrdinary) {child : Node} (hc : ∀ bindings ∈ child.scopes, AreOrdinary bindings) :
    (o.add child).IsOrdinary := by
  rw [Open.IsOrdinary, o.scopes_close, List.forall_mem_cons] at h
  rw [Open.IsOrdinary, Open.scopes_close, List.forall_mem_cons]
  refine ⟨h.1, ?_⟩
  rw [Open.add, List.reverse_cons, scopesOf_append, List.forall_mem_append]
  refine ⟨h.2, ?_⟩
  rwa [scopesOf, scopesOf, List.append_nil]

/-- An element that begins within ordinary bindings has ordinary bindings. -/
theorem ofStart? {outer : List (String × String)} {tag : Tag} {attributes : List (Tag × String)}
    (h : AreOrdinary outer) (ho : Open.ofStart? outer tag attributes = some o) :
    o.IsOrdinary := by
  simp only [Open.ofStart?, Option.bind_eq_bind, Option.bind_eq_some_iff] at ho
  obtain ⟨own, hown, ho⟩ := ho
  have hb := (AreOrdinary.declared? attributes (List.forall_mem_nil _) hown).withOuter h
  have made : ∀ space, ((resolved? (Xml.withOuter own outer) [] attributes).bind fun attributes =>
      some ⟨tag, space, attributes, Xml.withOuter own outer, []⟩) = some o → o.IsOrdinary := by
    intro space hmade
    obtain ⟨resolved, -, ho⟩ := Option.bind_eq_some_iff.1 hmade
    obtain rfl := Option.some.inj ho
    exact List.forall_mem_singleton.2 hb
  split at ho
  · exact nomatch ho
  · split at ho
    · exact made _ ho
    · obtain ⟨space, -, ho⟩ := Option.bind_eq_some_iff.1 ho
      exact made space ho

end Open.IsOrdinary

/-- All bindings in a tree are ordinary. -/
theorem areOrdinary_root? : ∀ (events : List Event) {opened : List Open} {e : Element},
    (∀ o ∈ opened, o.IsOrdinary) → root? opened events = some e →
      ∀ bindings ∈ e.scopes, AreOrdinary bindings
  | [], opened, e, _, he => by
      rw [root?] at he
      exact nomatch he
  | .start tag attributes :: rest, opened, e, h, he => by
      simp only [root?, Option.bind_eq_bind, Option.bind_eq_some_iff] at he
      obtain ⟨o, ho, he⟩ := he
      refine areOrdinary_root? rest (List.forall_mem_cons.2 ⟨.ofStart? ?_ ho, h⟩) he
      cases opened with
      | nil => exact List.forall_mem_nil _
      | cons p _ => exact (h p List.mem_cons_self).bindings
  | .stop tag :: rest, [], e, _, he => nomatch he
  | .text data :: rest, [], e, _, he => nomatch he
  | .stop tag :: rest, [o], e, h, he => by
      rw [root?] at he
      split at he
      · split at he
        · exact Option.some.inj he ▸ h o List.mem_cons_self
        · exact nomatch he
      · exact nomatch he
  | .stop tag :: rest, o :: p :: outer, e, h, he => by
      rw [List.forall_mem_cons, List.forall_mem_cons] at h
      rw [root?] at he
      split at he
      · have hp : (p.add (.element o.close)).IsOrdinary := h.2.1.add h.1
        exact areOrdinary_root? rest (List.forall_mem_cons.2 ⟨hp, h.2.2⟩) he
      · exact nomatch he
  | .text data :: rest, o :: opened, e, h, he => by
      rw [List.forall_mem_cons] at h
      exact areOrdinary_root? rest
        (List.forall_mem_cons.2 ⟨h.1.add (List.forall_mem_nil _), h.2⟩) he

theorem areOrdinary_ofText? {text : String} {e : Element} (h : Element.ofText? text = some e) :
    ∀ bindings ∈ e.scopes, AreOrdinary bindings := by
  obtain ⟨events, -, he⟩ := Option.bind_eq_some_iff.1 h
  exact areOrdinary_root? events (List.forall_mem_nil _) he

end Xml

/-! ### Documents that differ in their prefixes -/

namespace Xml

/-- Where bindings are in scope, a text denotes a name: in the namespace of its prefix, or else in
the default one. -/
inductive Denotes (bindings : List (String × String)) : String → QName → Prop where
  | prefixed {p name space : String} (hp : p ≠ "") (hc : ':' ∉ p.toList)
      (hs : spaceOf? bindings p = some space) : Denotes bindings (p ++ ":" ++ name) ⟨space, name⟩
  | plain {name : String} (hc : ':' ∉ name.toList) :
      Denotes bindings name ⟨(bindings.lookup "").getD "", name⟩

/-- Two texts denote the same name, each where its bindings are in scope. Blanks around them do not
count. -/
def DenoteSame (bindings bindings' : List (String × String)) (text text' : String) : Prop :=
  ∃ name, Denotes bindings (Text.trim text) name ∧ Denotes bindings' (Text.trim text') name

namespace Attribute

/-- The attributes of a schema that hold a name. -/
def namingNames : List String := ["type", "base", "ref", "itemType"]

/-- Whether the attribute of an element holds a name. -/
def HoldsName (elementSpace : String) (a : Attribute) : Prop :=
  elementSpace = QName.xsdSpace ∧ a.space = none ∧ a.name ∈ namingNames

/-- Whether the attribute of an element holds a list of names. -/
def HoldsNames (elementSpace : String) (a : Attribute) : Prop :=
  elementSpace = QName.xsdSpace ∧ a.space = none ∧ a.name = "memberTypes"

/-- Two attributes of elements in a namespace differ in nothing but the prefixes of names. -/
structure Reprefixes (elementSpace : String) (bindings bindings' : List (String × String))
    (a a' : Attribute) : Prop where
  space : a.space = a'.space
  name : a.name = a'.name
  one : a.HoldsName elementSpace → DenoteSame bindings bindings' a.value a'.value
  several : a.HoldsNames elementSpace →
    List.Forall₂ (DenoteSame bindings bindings') (Text.words a.value) (Text.words a'.value)
  other : ¬ a.HoldsName elementSpace → ¬ a.HoldsNames elementSpace → a.value = a'.value

end Attribute

mutual

/-- Two elements differ in nothing but prefixes. -/
inductive Element.Reprefixes : Element → Element → Prop where
  | mk {space name : String} {attributes attributes' : List Attribute}
      {bindings bindings' : List (String × String)} {children children' : List Node}
      (ha : List.Forall₂ (Attribute.Reprefixes space bindings bindings') attributes attributes')
      (hc : List.Forall₂ Node.Reprefixes children children') :
      Element.Reprefixes ⟨space, name, attributes, bindings, children⟩
        ⟨space, name, attributes', bindings', children'⟩

/-- Two children differ in nothing but prefixes. -/
inductive Node.Reprefixes : Node → Node → Prop where
  | element {e e' : Element} (h : e.Reprefixes e') : Node.Reprefixes (.element e) (.element e')
  | text (data : String) : Node.Reprefixes (.text data) (.text data)

end

mutual

/-- The character data is the same. -/
theorem Element.Reprefixes.characters : ∀ {e e' : Element}, e.Reprefixes e' →
    e.characters = e'.characters
  | ⟨_, _, _, _, children⟩, _, .mk _ hc => by
      rw [Element.characters, Element.characters]
      exact charactersOf_reprefixed hc

theorem charactersOf_reprefixed : ∀ {nodes nodes' : List Node},
    List.Forall₂ Node.Reprefixes nodes nodes' → charactersOf nodes = charactersOf nodes'
  | [], _, .nil => rfl
  | .element e :: rest, _, .cons (.element h) hrest => by
      rw [charactersOf, charactersOf, Node.characters, Node.characters, h.characters,
        charactersOf_reprefixed hrest]
  | .text data :: rest, _, .cons (.text _) hrest => by
      rw [charactersOf, charactersOf, charactersOf_reprefixed hrest]

end

namespace Element.Reprefixes

variable {e e' : Element} (h : e.Reprefixes e')
include h

theorem space : e.space = e'.space := by
  cases h
  rfl

theorem name : e.name = e'.name := by
  cases h
  rfl

theorem isNamed (space name : String) : e.isNamed space name = e'.isNamed space name := by
  rw [Element.isNamed, Element.isNamed, h.space, h.name]

/-- The elements among the children differ in nothing but prefixes. -/
theorem elements : List.Forall₂ Reprefixes e.elements e'.elements := by
  obtain ⟨-, hc⟩ := h
  refine List.rel_filterMap (R := Node.Reprefixes) (P := Reprefixes) (fun node node' hn => ?_) hc
  cases hn with
  | element h => exact .some h
  | text data => exact .none

end Element.Reprefixes

end Xml

end Crosswalk
