import Crosswalk.Conversion.Simple
import Crosswalk.Proofs.Json.Links

/-!
# Keywords without links

The keywords of datatypes and facets have numbers, strings and lists of these as values, and none of
them is that of a link.
-/

namespace Crosswalk

open Json

variable {P : String → Prop}

namespace Json.MembersAre

theorem insert {keywords : Table String Json} (h : MembersAre P keywords) (name : String)
    {value : Json} (hv : MemberSatisfies P (name, value)) :
    MembersAre P (Table.insert keywords name value) :=
  Table.forall_mem_insert h hv

theorem withKeyword {keywords : Table String Json} (h : MembersAre P keywords) {name : String}
    (hn : name ≠ "$ref") {value : Option Json} (hv : ∀ v, value = some v → LinksSatisfy P v) :
    MembersAre P (Datatype.withKeyword keywords name value) := by
  cases value with
  | none => exact h
  | some v => exact h.insert _ (.of_ne hn (hv v rfl))

theorem withBound {keywords : Table String Json} (h : MembersAre P keywords)
    (names : String × String) (h1 : names.1 ≠ "$ref") (h2 : names.2 ≠ "$ref")
    (bound : Option Bound) : MembersAre P (FacetSet.withBound keywords names bound) := by
  cases bound with
  | none => exact h
  | some b =>
      have hn : (if b.exclusive then names.2 else names.1) ≠ "$ref" := by
        split
        · exact h2
        · exact h1
      refine h.withKeyword hn fun v hv => ?_
      obtain ⟨n, -, rfl⟩ := Option.map_eq_some_iff.1 hv
      exact linksSatisfy_number n

theorem withPatterns {keywords : Table String Json} (h : MembersAre P keywords)
    (patterns : List String) : MembersAre P (FacetSet.withPatterns keywords patterns) := by
  match patterns with
  | [] => exact h
  | [p] => exact h.insert _ (.of_ne (by decide) (linksSatisfy_string p))
  | p :: q :: rest =>
      refine (h.insert _ (.of_ne (by decide) (linksSatisfy_string p))).insert _
        (.of_ne (by decide) (linksSatisfy_array.2 fun item hi => ?_))
      obtain ⟨r, -, rfl⟩ := List.mem_map.1 hi
      exact linksSatisfy_object.2 fun member hm =>
        List.mem_singleton.1 hm ▸ .of_ne (by decide) (linksSatisfy_string r)

/-- A mapped keyword that is a scalar. -/
theorem withScalar {α : Type} {keywords : Table String Json} (h : MembersAre P keywords)
    (name : String) (hn : name ≠ "$ref") (value : Option α) {scalar : α → Json}
    (hs : ∀ a, LinksSatisfy P (scalar a)) :
    MembersAre P (Datatype.withKeyword keywords name (value.map scalar)) := by
  refine h.withKeyword hn fun v hv => ?_
  obtain ⟨a, -, rfl⟩ := Option.map_eq_some_iff.1 hv
  exact hs a

end Json.MembersAre

theorem ValueSpace.linksSatisfy_literal (space : ValueSpace) (lexical : String) :
    LinksSatisfy P (space.literal lexical) := by
  unfold ValueSpace.literal
  split
  · cases truthValue? lexical <;> simp
  · split
    · cases Number.ofLexical? lexical <;> simp
    · simp

theorem Datatype.linksSatisfy_typeKeyword (space : ValueSpace) :
    LinksSatisfy P (Datatype.typeKeyword space) := by
  cases space <;> first | exact linksSatisfy_string _ | exact linksSatisfy_strings _

theorem Datatype.membersAre_keywords (d : Datatype) : MembersAre P d.keywords :=
  ((MembersAre.nil.insert _ (.of_ne (by decide) (linksSatisfy_typeKeyword d.space))).withScalar _
    (by decide) d.format linksSatisfy_string).withScalar _ (by decide) d.encoding
    linksSatisfy_string

theorem Datatype.membersAre_fullKeywords (d : Datatype) : MembersAre P d.fullKeywords :=
  ((d.membersAre_keywords.withScalar _ (by decide) d.pattern linksSatisfy_string).withScalar _
    (by decide) _ linksSatisfy_number).withScalar _ (by decide) _ linksSatisfy_number

theorem Datatype.isSchema_schemaOf? {name : String} {schema : Json}
    (h : Datatype.schemaOf? name = some schema) : IsSchema P schema := by
  unfold Datatype.schemaOf? at h
  split at h
  · exact Option.some.inj h ▸ isSchema_object.2 MembersAre.nil
  · obtain ⟨d, -, rfl⟩ := Option.map_eq_some_iff.1 h
    exact isSchema_object.2 d.membersAre_fullKeywords

theorem FacetSet.membersAre_keywords (s : FacetSet) (d : Datatype) :
    MembersAre P (s.keywords d) := by
  have lengths := (d.membersAre_keywords (P := P).withScalar "minLength" (by decide)
    s.minLength linksSatisfy_nat).withScalar "maxLength" (by decide) s.maxLength
    linksSatisfy_nat
  have literals : ∀ values : List String,
      LinksSatisfy P (.array (values.map d.space.literal)) := fun values =>
    linksSatisfy_array.2 fun item hi => by
      obtain ⟨v, -, rfl⟩ := List.mem_map.1 hi
      exact d.space.linksSatisfy_literal v
  have values := (lengths.withPatterns s.patterns).withScalar "enum" (by decide)
    s.enumeration literals
  have bounds := (values.withBound ("minimum", "exclusiveMinimum") (by decide)
    (by decide) (s.effectiveLower d.space)).withBound
    ("maximum", "exclusiveMaximum") (by decide) (by decide) (s.effectiveUpper d.space)
  unfold FacetSet.keywords
  split
  · exact bounds.insert _ (.of_ne (by decide) (linksSatisfy_nat 1))
  · exact bounds

end Crosswalk
