import Crosswalk.Facet.Effective
import Crosswalk.Proofs.Json.Keywords
import Crosswalk.Proofs.Validation.Blind

/-!
# What the keywords of a facet set ask for

The keywords are added one by one under different names, and so a condition on all members of the
object is one on each facet in effect (`FacetSet.forall_mem_keywords_iff`). A value is accepted if
each of them passes (`FacetSet.accepts_keywords_iff`).
-/

namespace Crosswalk

open Check

/-- The members of a table have some of the names, and satisfy `P` if and only if `Q` holds. -/
structure Demands (P : String × Json → Prop) (names : List String) (t : Table String Json)
    (Q : Prop) : Prop where
  keys : ∀ name ∈ Table.keys t, name ∈ names
  iff : (∀ member ∈ t, P member) ↔ Q

namespace Demands

variable {P : String × Json → Prop} {names : List String} {t : Table String Json} {Q : Prop}

theorem nil : Demands P [] [] True := ⟨nofun, by simp⟩

theorem insert (h : Demands P names t Q) (name : String) (hn : name ∉ names) (v : Json) :
    Demands P (name :: names) (Table.insert t name v) (Q ∧ P (name, v)) where
  keys other ho := by
    rcases (Table.keys_insert t name other v).1 ho with rfl | ho
    · exact List.mem_cons_self
    · exact List.mem_cons_of_mem _ (h.keys other ho)
  iff := by
    rw [← h.iff]
    simp only [Table.mem_insert_iff fun hk => hn (h.keys name hk)]
    grind

theorem mono (h : Demands P names t Q) {more : List String} (hm : names ⊆ more) :
    Demands P more t Q := ⟨fun name hn => hm (h.keys name hn), h.iff⟩

theorem withKeyword (h : Demands P names t Q) (name : String) (hn : name ∉ names)
    (value : Option Json) : Demands P (name :: names) (Datatype.withKeyword t name value)
      (Q ∧ ∀ v, value = some v → P (name, v)) := by
  cases value with
  | none => exact ⟨(h.mono (List.subset_cons_self _ _)).keys, h.iff.trans (by simp)⟩
  | some v =>
      have hi := h.insert name hn v
      exact ⟨hi.keys, hi.iff.trans (by simp)⟩

theorem withMapped {α : Type} (h : Demands P names t Q) (name : String) (hn : name ∉ names)
    (value : Option α) (write : α → Json) :
    Demands P (name :: names) (Datatype.withKeyword t name (value.map write))
      (Q ∧ ∀ a, value = some a → P (name, write a)) := by
  have hk := h.withKeyword name hn (value.map write)
  exact ⟨hk.keys, hk.iff.trans (by cases value <;> simp)⟩

theorem withBound (h : Demands P names t Q) (inclusive exclusive : String)
    (hi : inclusive ∉ names) (he : exclusive ∉ names) (bound : Option Bound) :
    Demands P (inclusive :: exclusive :: names)
      (FacetSet.withBound t (inclusive, exclusive) bound)
      (Q ∧ ∀ b, bound = some b → ∀ k, Number.ofLexical? b.lexical = some k →
        P (if b.exclusive then exclusive else inclusive, .number k)) := by
  cases bound with
  | none => exact ⟨(h.mono (by simp)).keys, h.iff.trans (by simp)⟩
  | some b =>
      have hname : (if b.exclusive then exclusive else inclusive) ∉ names := by
        split_ifs <;> assumption
      have hk := h.withMapped _ hname (Number.ofLexical? b.lexical) Json.number
      refine ⟨(hk.mono ?_).keys, hk.iff.trans (by simp)⟩
      split_ifs <;> simp

theorem withPatterns (h : Demands P names t Q) (hp : "pattern" ∉ names) (ha : "allOf" ∉ names)
    (patterns : List String) :
    Demands P ("allOf" :: "pattern" :: names) (FacetSet.withPatterns t patterns)
      (Q ∧ ∀ p rest, patterns = p :: rest → P ("pattern", .string p) ∧ (rest ≠ [] →
        P ("allOf", .array (rest.map fun r => .object [("pattern", .string r)])))) := by
  match patterns with
  | [] => exact ⟨(h.mono (by simp)).keys, h.iff.trans (by simp)⟩
  | [p] =>
      have hk := h.insert _ hp (.string p)
      exact ⟨(hk.mono (by simp)).keys, hk.iff.trans (by simp)⟩
  | p :: q :: rest =>
      have hk := (h.insert _ hp (.string p)).insert "allOf" (by simpa using ha)
        (.array ((q :: rest).map fun r => .object [("pattern", .string r)]))
      exact ⟨hk.keys, hk.iff.trans (by simp [and_assoc])⟩

end Demands

/-- The keywords of the datatype and of each facet in effect satisfy `P`. -/
structure FacetSet.KeywordsSatisfy (P : String × Json → Prop) (s : FacetSet) (d : Datatype) :
    Prop where
  type : P ("type", Datatype.typeKeyword d.space)
  format : ∀ f, d.format = some f → P ("format", .string f)
  encoding : ∀ e, d.encoding = some e → P ("contentEncoding", .string e)
  minLength : ∀ n, s.minLength = some n → P ("minLength", .nat n)
  maxLength : ∀ n, s.maxLength = some n → P ("maxLength", .nat n)
  patterns : ∀ p rest, s.patterns = p :: rest → P ("pattern", .string p) ∧
    (rest ≠ [] → P ("allOf", .array (rest.map fun r => .object [("pattern", .string r)])))
  enumeration : ∀ values, s.enumeration = some values →
    P ("enum", .array (values.map d.space.literal))
  lower : ∀ b, s.effectiveLower d.space = some b → ∀ k, Number.ofLexical? b.lexical = some k →
    P (if b.exclusive then "exclusiveMinimum" else "minimum", .number k)
  upper : ∀ b, s.effectiveUpper d.space = some b → ∀ k, Number.ofLexical? b.lexical = some k →
    P (if b.exclusive then "exclusiveMaximum" else "maximum", .number k)
  whole : s.fractionDigits = some 0 ∧ d.space = .decimal → P ("multipleOf", .nat 1)

namespace FacetSet

variable (P : String × Json → Prop) (s : FacetSet) (d : Datatype)

/-- The names of the keywords of facets and datatypes. -/
def keywordNames : List String :=
  ["multipleOf", "maximum", "exclusiveMaximum", "minimum", "exclusiveMinimum", "enum", "allOf",
    "pattern", "maxLength", "minLength", "contentEncoding", "format", "type"]

theorem demands_keywords :
    Demands P keywordNames (s.keywords d) (s.KeywordsSatisfy P d) := by
  have hdatatype := ((Demands.nil (P := P).insert "type" (by decide)
    (Datatype.typeKeyword d.space)).withMapped "format" (by decide) d.format
    Json.string).withMapped "contentEncoding" (by decide) d.encoding Json.string
  have hstrings := (((hdatatype.withMapped "minLength" (by decide) s.minLength
    Json.nat).withMapped "maxLength" (by decide) s.maxLength Json.nat).withPatterns (by decide)
    (by decide) s.patterns).withMapped "enum" (by decide) s.enumeration
    fun values => .array (values.map d.space.literal)
  have hrange := (hstrings.withBound "minimum" "exclusiveMinimum" (by decide) (by decide)
    (s.effectiveLower d.space)).withBound "maximum" "exclusiveMaximum" (by decide) (by decide)
    (s.effectiveUpper d.space)
  unfold keywords
  dsimp only
  split_ifs with hwhole
  · have hall := hrange.insert "multipleOf" (by decide) (.nat 1)
    refine ⟨(hall.mono (by decide)).keys, hall.iff.trans ⟨?_, ?_⟩⟩
    · rintro ⟨⟨⟨⟨⟨⟨⟨⟨⟨⟨-, h1⟩, h2⟩, h3⟩, h4⟩, h5⟩, h6⟩, h7⟩, h8⟩, h9⟩, h10⟩
      exact ⟨h1, h2, h3, h4, h5, h6, h7, h8, h9, fun _ => h10⟩
    · rintro ⟨h1, h2, h3, h4, h5, h6, h7, h8, h9, h10⟩
      exact ⟨⟨⟨⟨⟨⟨⟨⟨⟨⟨trivial, h1⟩, h2⟩, h3⟩, h4⟩, h5⟩, h6⟩, h7⟩, h8⟩, h9⟩, h10 hwhole⟩
  · refine ⟨(hrange.mono (by decide)).keys, hrange.iff.trans ⟨?_, ?_⟩⟩
    · rintro ⟨⟨⟨⟨⟨⟨⟨⟨⟨-, h1⟩, h2⟩, h3⟩, h4⟩, h5⟩, h6⟩, h7⟩, h8⟩, h9⟩
      exact ⟨h1, h2, h3, h4, h5, h6, h7, h8, h9, fun h => absurd h hwhole⟩
    · rintro ⟨h1, h2, h3, h4, h5, h6, h7, h8, h9, h10⟩
      exact ⟨⟨⟨⟨⟨⟨⟨⟨⟨trivial, h1⟩, h2⟩, h3⟩, h4⟩, h5⟩, h6⟩, h7⟩, h8⟩, h9⟩

/-- A condition on all keywords is one on those of the datatype and on each facet in effect. -/
theorem forall_mem_keywords_iff : (∀ member ∈ s.keywords d, P member) ↔ s.KeywordsSatisfy P d :=
  (demands_keywords P s d).iff

@[simp] theorem reference?_keywords : reference? (s.keywords d) = none := by
  have hnone : Table.find? (s.keywords d) "$ref" = none :=
    Table.find?_eq_none_iff.2 fun h =>
      absurd ((demands_keywords (fun _ => True) s d).keys _ h) (by decide)
  rw [reference?, hnone]
  rfl

variable {Home : Type} {follow : Follow Home} {home : Home} {value : Json}

/-- A value is accepted if and only if it passes each keyword. -/
theorem accepts_keywords_iff : Accepts follow home value (.object (s.keywords d)) ↔
    s.KeywordsSatisfy (Passes follow home value (s.keywords d)) d := by
  rw [← forall_mem_keywords_iff]
  exact accepts_object_iff (reference?_keywords s d)

end FacetSet

end Crosswalk
