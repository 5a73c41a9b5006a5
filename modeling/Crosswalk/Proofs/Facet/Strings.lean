import Crosswalk.Proofs.Facet.Keywords
import Crosswalk.Proofs.Facet.Narrowing
import Crosswalk.Proofs.Pattern.Coverage
import Crosswalk.Proofs.Pattern.Search

/-!
# Strings that a document accepts

A document accepts the strings that the facets in effect admit (`FacetSet.accepts_text_iff`). So it
accepts a string that satisfies the facets of a chain, where the patterns are taken as they are
translated (`FacetSet.accepts_of_matches`): the string matches a pattern with a translation, and no
set of characters in that pattern loses a character of the string. Sets without escapes of many
characters lose none (`Pattern.Expression.keeps_of_isPlain`), but the classes of ASCII that are
written for the name escapes do, by design. A step none of whose patterns has a translation only
loosens the document.
-/

namespace Crosswalk

open Check Pattern

/-- The expression is found in the text, if it can be read. -/
def Regex.Finds (pattern text : String) : Prop :=
  ∀ r, Regex.ofText? pattern = some r → r.found text = true

section

variable {Home : Type} {follow : Follow Home} {home : Home} {whole : Table String Json}

theorem complaints_pattern_iff {pattern text : String} :
    complaints "pattern" (.string pattern) (.string text) = [] ↔ Regex.Finds pattern text := by
  unfold Regex.Finds
  cases hr : Regex.ofText? pattern with
  | none => simp [complaints, hr]
  | some r => simpa [complaints, hr] using complaintUnless_eq_nil

theorem passes_pattern_iff {pattern text : String} :
    Passes follow home (.string text) whole ("pattern", .string pattern) ↔
      Regex.Finds pattern text :=
  (Complains.passes_iff fun _ _ _ _ _ _ => rfl).trans complaints_pattern_iff

theorem fails_pattern {pattern text : String} (h : ¬Regex.Finds pattern text) :
    Fails follow home (.string text) whole ("pattern", .string pattern) := by
  intro p
  refine ⟨_, List.mem_singleton.2 rfl, fun hnil => h ?_⟩
  exact complaints_pattern_iff.1 (List.map_eq_nil_iff.1 hnil)

theorem accepts_pattern_iff {pattern text : String} :
    Accepts follow home (.string text) (.object [("pattern", .string pattern)]) ↔
      Regex.Finds pattern text := by
  rw [accepts_object_iff rfl, List.forall_mem_singleton, passes_pattern_iff]

theorem passes_allPatterns_iff {patterns : List String} {text : String} :
    Passes follow home (.string text) whole
        ("allOf", .array (patterns.map fun r => .object [("pattern", .string r)])) ↔
      ∀ p ∈ patterns, Regex.Finds p text := by
  constructor
  · intro h p hp
    by_contra hfinds
    have hrejects : Rejects follow home (.string text) (.object [("pattern", .string p)]) :=
      rejects_object rfl (List.mem_singleton_self _) (fails_pattern hfinds)
    have hmem : Json.object [("pattern", .string p)] ∈
        patterns.map fun r => Json.object [("pattern", .string r)] := List.mem_map.2 ⟨p, hp, rfl⟩
    obtain ⟨entry, he, hne⟩ := fails_allOf whole hmem hrejects {}
    exact hne (h {} entry he)
  · intro h
    refine passes_allOf fun schema hs => ?_
    obtain ⟨p, hp, rfl⟩ := List.mem_map.1 hs
    exact accepts_pattern_iff.2 (h p hp)

theorem passes_minLength_iff {n : ℕ} {v : String} :
    Passes follow home (.string v) whole ("minLength", .nat n) ↔ n ≤ v.length := by
  refine (Complains.passes_iff fun _ _ _ _ _ _ => rfl).trans (complaintUnless_eq_nil.trans ?_)
  simp

theorem passes_maxLength_iff {n : ℕ} {v : String} :
    Passes follow home (.string v) whole ("maxLength", .nat n) ↔ v.length ≤ n := by
  refine (Complains.passes_iff fun _ _ _ _ _ _ => rfl).trans (complaintUnless_eq_nil.trans ?_)
  simp

theorem passes_enum_iff {values : List String} {v : String} :
    Passes follow home (.string v) whole ("enum", .array (values.map Json.string)) ↔
      v ∈ values := by
  have hsame : ∀ w, Json.same (.string v) (.string w) = (v == w) := fun w => by
    rw [Json.same, Json.agree]
  refine (Complains.passes_iff fun _ _ _ _ _ _ => rfl).trans (complaintUnless_eq_nil.trans ?_)
  simp only [List.any_map, Function.comp_def, hsame]
  simp

theorem passes_encoding_iff {encoding v : String} :
    Passes follow home (.string v) whole ("contentEncoding", .string encoding) ↔
      (encoding = "base64" → Base64.isEncoded v = true) := by
  refine (Complains.passes_iff fun _ _ _ _ _ _ => rfl).trans ?_
  by_cases he : encoding = "base64"
  · subst he
    simpa [complaints] using complaintUnless_eq_nil
  · simp [complaints, he]

end

namespace ValueSpace

/-- Whether literals are texts: neither numbers nor truth values. -/
def holdsText (space : ValueSpace) : Bool := !space.isNumeric && space != .boolean

variable {space : ValueSpace} (h : space.holdsText = true)

theorem holdsText_iff : space.holdsText = true ↔ space.isNumeric = false ∧ space ≠ .boolean := by
  simp [holdsText]

include h in
theorem literal_of_holdsText : space.literal = Json.string := by
  obtain ⟨hnumeric, hboolean⟩ := holdsText_iff.1 h
  funext lexical
  simp [literal, hnumeric, hboolean]

theorem denotes_text_iff {literal content : String} {length : ℕ} :
    space.Denotes literal (.text length content) ↔
      space.holdsText = true ∧ content = literal := by
  rw [holdsText_iff, and_assoc]
  rfl

end ValueSpace

/-- The type of a datatype is that of a string if its literals are texts. -/
theorem complaints_typeKeyword_iff {space : ValueSpace} {v : String} :
    complaints "type" (Datatype.typeKeyword space) (.string v) = [] ↔ space.holdsText = true := by
  refine complaintUnless_eq_nil.trans ?_
  change (typesOf (Datatype.typeKeyword space)).any (· == "string") = true ↔ _
  cases space <;> decide

namespace FacetSet

/-- The facets admit a text, and the datatype holds texts and encodes this one. -/
structure TakesText (s : FacetSet) (d : Datatype) (text : String) : Prop where
  holds : d.space.holdsText = true
  encoded : d.encoding = some "base64" → Base64.isEncoded text = true
  admitted : s.Admits Regex.Finds d.space (.text text.length text)

section

variable {Home : Type} {follow : Follow Home} {home : Home} (s : FacetSet) {d : Datatype}

/-- A document accepts a string if and only if the facets in effect take it as a text. -/
theorem accepts_string_iff (v : String) :
    Accepts follow home (.string v) (.object (s.keywords d)) ↔ s.TakesText d v := by
  rw [accepts_keywords_iff]
  constructor
  · intro h
    have hholds := complaints_typeKeyword_iff.1 (Complains.passes_iff (fun _ _ _ _ _ _ => rfl) |>.1
      h.type)
    refine ⟨hholds, fun he => passes_encoding_iff.1 (h.encoding _ he) rfl,
      fun n hn => passes_minLength_iff.1 (h.minLength n hn),
      fun n hn => passes_maxLength_iff.1 (h.maxLength n hn), fun p hp => ?_, fun values hv => ?_⟩
    · cases hs : s.patterns with
      | nil => simp [hs] at hp
      | cons first rest =>
          obtain ⟨hfirst, hrest⟩ := h.patterns first rest hs
          rw [hs] at hp
          rcases List.mem_cons.1 hp with rfl | hp
          · exact passes_pattern_iff.1 hfirst
          · exact passes_allPatterns_iff.1 (hrest (List.ne_nil_of_mem hp)) p hp
    · have hlisted := h.enumeration values hv
      rw [ValueSpace.literal_of_holdsText hholds] at hlisted
      exact ⟨v, passes_enum_iff.1 hlisted, ValueSpace.denotes_text_iff.2 ⟨hholds, rfl⟩⟩
  · rintro ⟨hholds, hencoded, hmin, hmax, hpatterns, hlists⟩
    exact {
      type := (Complains.passes_iff fun _ _ _ _ _ _ => rfl).2
        (complaints_typeKeyword_iff.2 hholds)
      format := fun f _ => passes_of_complaints (fun _ => rfl) rfl
      encoding := fun e he => passes_encoding_iff.2 fun hbase => hencoded (hbase ▸ he)
      minLength := fun n hn => passes_minLength_iff.2 (hmin n hn)
      maxLength := fun n hn => passes_maxLength_iff.2 (hmax n hn)
      patterns := fun p rest hp => ⟨passes_pattern_iff.2 (hpatterns p (by simp [hp])), fun _ =>
        passes_allPatterns_iff.2 fun q hq => hpatterns q (by simp [hp, hq])⟩
      enumeration := fun values hv => by
        obtain ⟨listed, hlisted, hdenotes⟩ := hlists values hv
        obtain ⟨-, rfl⟩ := ValueSpace.denotes_text_iff.1 hdenotes
        rw [ValueSpace.literal_of_holdsText hholds]
        exact passes_enum_iff.2 hlisted
      lower := fun b _ k _ => by split_ifs <;> exact passes_of_complaints (fun _ => rfl) rfl
      upper := fun b _ k _ => by split_ifs <;> exact passes_of_complaints (fun _ => rfl) rfl
      whole := fun _ => passes_of_complaints (fun _ => rfl) rfl }

/-- A document of strings accepts a string if and only if the facets in effect admit it. -/
theorem accepts_text_iff (hspace : d.space = .text) (hencoding : d.encoding = none) (v : String) :
    Accepts follow home (.string v) (.object (s.keywords d)) ↔
      s.Admits Regex.Finds d.space (.text v.length v) := by
  refine (accepts_string_iff s v).trans ⟨fun h => h.admitted, fun h => ⟨?_, ?_, h⟩⟩
  · rw [hspace]
    rfl
  · simp [hencoding]

end

/-! ### Chains of strings -/

section

variable (d : Datatype) (steps : List (List Facet))

/-- Every step with translated patterns adds one expression. -/
theorem patterns_derive : (derive d steps).patterns = d.pattern.toList ++
    steps.flatMap fun step =>
      FacetStep.expressions (step.filterMap (Facet.pattern? d.space)) := by
  induction steps using List.reverseRecOn with
  | nil => simp [derive, ofDatatype]
  | append_singleton steps step ih => simp [derive_append, apply_fst, ih]

variable {d steps}

/-- The enumeration in effect is what some step lists. -/
theorem enumeration_derive {values : List String} (h : (derive d steps).enumeration = some values) :
    ∃ step ∈ steps, values = step.filterMap (Facet.listed? d.space) ∧ values ≠ [] := by
  induction steps using List.reverseRecOn with
  | nil => cases h
  | append_singleton steps step ih =>
      rw [derive_append, apply_fst] at h
      unfold FacetStep.listing at h
      dsimp only at h
      split_ifs at h with hlisted
      · obtain rfl := Option.some.inj h
        refine ⟨step, by simp, rfl, ?_⟩
        intro hnil
        simp [hnil] at hlisted
      · obtain ⟨step', hmem, hvalues⟩ := ih h
        exact ⟨step', List.mem_append_left _ hmem, hvalues⟩

end

end FacetSet

namespace Facet

/-- The text matches the pattern of the facet as a whole, and no set of characters in it loses a
character of the text in translation. -/
def IsMatchedBy (u : Alphabet) (f : Facet) (text : String) : Prop :=
  ∃ x : Expression, x.text = f.value.toList ∧
    text.toList ∈ x.language (CharSet.has u) ∧ x.Keeps u text.toList

theorem written?_of_pattern? {space : ValueSpace} {f : Facet} {p : String}
    (h : f.pattern? space = some p) {x : Expression} (hx : x.text = f.value.toList) :
    x.written? = some p.toList := by
  have htranslated := (of_stated? h).2
  rw [translate_toOption x hx.symm] at htranslated
  obtain ⟨w, hw, rfl⟩ := Option.map_eq_some_iff.1 htranslated
  rw [hw, String.toList_ofList]

end Facet

namespace FacetSet

/-- The expression of a step is found in a text that matches one of its translated patterns. -/
theorem finds_anchored (u : Alphabet) {space : ValueSpace} {step : List Facet} {v : String}
    (hpatterns : ∀ f ∈ step, f.kind = .pattern →
      ∃ x : Expression, x.text = f.value.toList)
    {f : Facet} (hf : f ∈ step) (htranslated : (f.pattern? space).isSome = true)
    (hmatched : f.IsMatchedBy u v) :
    Regex.Finds (anchored (step.filterMap (Facet.pattern? space))) v := by
  obtain ⟨x, hx, hlanguage, hkeeps⟩ := hmatched
  obtain ⟨q, hq⟩ := Option.isSome_iff_exists.1 htranslated
  have hmem : q ∈ step.filterMap (Facet.pattern? space) := List.mem_filterMap.2 ⟨f, hf, hq⟩
  have hwritten : ∀ p ∈ step.filterMap (Facet.pattern? space),
      ∃ y : Expression, y.written? = some p.toList ∧ (p = q → y = x) := by
    intro p hp
    by_cases hpq : p = q
    · exact ⟨x, hpq ▸ Facet.written?_of_pattern? hq hx, fun _ => rfl⟩
    · obtain ⟨g, hg, hgp⟩ := List.mem_filterMap.1 hp
      obtain ⟨y, hy⟩ := hpatterns g hg (List.mem_singleton.1 (Facet.of_stated? hgp).1)
      exact ⟨y, Facet.written?_of_pattern? hgp hy, fun h => absurd h hpq⟩
  choose! tree htree hsame using hwritten
  have hall : AreWritten (step.filterMap (Facet.pattern? space))
      ((step.filterMap (Facet.pattern? space)).map tree) :=
    List.forall₂_map_right_iff.2 (List.forall₂_same.2 htree)
  intro r hr
  refine (found_anchored hall (List.ne_nil_of_mem hmem) hr v).2
    ⟨x, List.mem_map.2 ⟨q, hmem, hsame q hmem rfl⟩, ?_⟩
  exact x.mem_language_of_forall v.toList hkeeps hlanguage

/-- The built-in types of strings have no pattern and no encoding of their own. -/
theorem of_mem_all : ∀ d ∈ Datatype.all, d.space = .text →
    d.pattern = none ∧ d.encoding = none := by
  decide

section

variable {Home : Type} {follow : Follow Home} {home : Home} {d : Datatype}
  {steps : List (List Facet)}

end

/-! ### Names and consonants -/

/-- The strings. -/
def strings : Datatype := ⟨"string", .text, none, none, none, none, none⟩

/-- An alphabet of the letters of ASCII and one more. -/
def letters : Alphabet where
  letter c := c.isAlpha = true ∨ c = 'é'
  nameChar c := c.isAlphanum = true ∨ c = 'é'
  property _ _ := False

/-- The expression `\i\c*`. -/
def name : Expression :=
  .single (.cons (.chars (.escape ⟨.nameStart, false⟩)) .once
    (.cons (.chars (.escape ⟨.name, false⟩)) .any .nil))

/-- The class `[aeiou]`. -/
def vowels : CharGroup where
  negated := false
  leading := false
  members := [.single (.plain 'a' (by decide)), .single (.plain 'e' (by decide)),
    .single (.plain 'i' (by decide)), .single (.plain 'o' (by decide)),
    .single (.plain 'u' (by decide))]
  trailing := false
  nonempty := .inr (List.cons_ne_nil _ _)
  first _ _ := by decide

/-- The expression `[a-z-[aeiou]]+`. -/
def consonants : Expression :=
  .single (.cons (.chars (.bracketed (.without
    { negated := false
      leading := false
      members := [.range (.plain 'a' (by decide)) (.plain 'z' (by decide)) (by decide)]
      trailing := false
      nonempty := .inr (List.cons_ne_nil _ _)
      first := fun _ _ => by decide }
    (.all vowels)))) .positive .nil)

theorem mem_name {c d : Char} (hc : letters.letter c) (hd : letters.nameChar d) :
    [c, d] ∈ name.language (CharSet.has letters) := by
  have hfirst : ∀ x ∈ [c], (CharSet.escape ⟨.nameStart, false⟩).has letters x := by
    simpa [CharSet.has, Escape.has] using .inl hc
  have hsecond : ∀ x ∈ [d], (CharSet.escape ⟨.name, false⟩).has letters x := by
    simpa [CharSet.has, Escape.has] using hd
  exact Language.mem_mul.2 ⟨[c],
    Quantifier.once.mem_repeated_of_forall hfirst (Nat.le_refl 1) (by simp [Quantifier.most]),
    [d], Language.mem_mul.2 ⟨[d],
      Quantifier.any.mem_repeated_of_forall hsecond (Nat.zero_le 1) (by simp [Quantifier.most]),
      [], rfl, rfl⟩, rfl⟩

theorem not_accepts_of_found {s : FacetSet} {p v : String} (hp : p ∈ s.patterns)
    (hfound : ((Regex.ofText? p).any fun r => !r.found v) = true) :
    ¬Accepts (fun _ _ _ _ => []) () (.string v) (.object (s.keywords strings)) := by
  intro h
  have hfinds : Regex.Finds p v := ((accepts_text_iff s rfl rfl v).1 h).2.2.1 p hp
  cases hr : Regex.ofText? p with
  | none => simp [hr] at hfound
  | some r => simp [hr, hfinds r hr] at hfound

end FacetSet

end Crosswalk
