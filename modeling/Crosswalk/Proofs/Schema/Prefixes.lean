import Crosswalk.Proofs.Schema.Arrangement
import Crosswalk.Proofs.Xml.Prefixes
import Mathlib.Data.List.TakeWhile

/-!
# Schemas of documents that differ in their prefixes

The reader replaces every prefix by the namespace that it stands for where it stands. So constructs
that differ in nothing but prefixes are read alike, and so are documents, except for the prefixes
that the schema remembers of the root.
-/

namespace Crosswalk

open Xml

namespace Construct

/-! ### Names -/

theorem splitPrefix?_prefixed {p : String} (name : String) (h : ':' ∉ p.toList) :
    splitPrefix? (p ++ ":" ++ name) = some (p, name) := by
  have hp : ∀ c ∈ p.toList, (c != ':') = true := fun c hc =>
    bne_iff_ne.2 fun heq => h (heq ▸ hc)
  have htext : (p ++ ":" ++ name).toList = p.toList ++ ':' :: name.toList := by
    simp [String.toList_append]
  rw [splitPrefix?, htext, List.dropWhile_append_of_pos hp, List.takeWhile_append_of_pos hp]
  simp

theorem splitPrefix?_plain {name : String} (h : ':' ∉ name.toList) : splitPrefix? name = none := by
  have hdrop : name.toList.dropWhile (· != ':') = [] :=
    List.dropWhile_eq_nil_iff.2 fun c hc => bne_iff_ne.2 fun heq => h (heq ▸ hc)
  rw [splitPrefix?, hdrop]

/-- A text that denotes a name is read as that name; only that the prefix `xml` is not bound. -/
theorem resolve_of_denotes {bindings : List (String × String)} (ho : AreOrdinary bindings)
    {text : String} {q : QName} (h : Denotes bindings (Text.trim text) q) :
    resolve bindings text =
      if q.space = xmlSpace then
        .error ("undeclared prefix '" ++ "xml" ++ "' in '" ++ ("xml" ++ ":" ++ q.name) ++ "'")
      else .ok q := by
  unfold resolve
  generalize Text.trim text = t at h
  cases h with
  | @prefixed p name space hp hc hs =>
      dsimp only
      rw [splitPrefix?_prefixed name hc]
      dsimp only
      rw [if_neg hp]
      unfold spaceOf? at hs
      split at hs
      · next hxml =>
          have hnone : bindings.lookup "xml" = none := Option.eq_none_iff_forall_ne_some.2
            fun uri hl => (ho.of_lookup hl).1 rfl
          obtain rfl := Option.some.inj hs
          rw [hxml, hnone, if_pos rfl]
      · rw [hs, if_neg (ho.of_lookup hs).2]
  | plain hc =>
      dsimp only
      rw [splitPrefix?_plain hc]
      dsimp only
      rw [if_neg]
      cases hl : bindings.lookup "" with
      | none => exact fun heq => absurd heq (by decide)
      | some space => exact (ho.of_lookup hl).2

/-- Texts that denote the same name are read alike. -/
theorem resolve_same {bindings bindings' : List (String × String)} (ho : AreOrdinary bindings)
    (ho' : AreOrdinary bindings') {text text' : String}
    (h : DenoteSame bindings bindings' text text') :
    resolve bindings text = resolve bindings' text' := by
  obtain ⟨q, hq, hq'⟩ := h
  rw [resolve_of_denotes ho hq, resolve_of_denotes ho' hq']

/-! ### Constructs -/

/-- Two constructs differ in nothing but prefixes. -/
inductive Reprefixes : Construct → Construct → Prop where
  | mk {name : String} {attributes attributes' : List Xml.Attribute}
      {bindings bindings' : List (String × String)} {documentation : Option String}
      {children children' : List Construct}
      (ho : AreOrdinary bindings) (ho' : AreOrdinary bindings')
      (ha : List.Forall₂ (Xml.Attribute.Reprefixes QName.xsdSpace bindings bindings')
        attributes attributes')
      (hc : List.Forall₂ Reprefixes children children') :
      Reprefixes (.mk name attributes bindings documentation children)
        (.mk name attributes' bindings' documentation children')

theorem documentationIn_reprefixed {e e' : Xml.Element} (h : e.Reprefixes e') :
    documentationIn e = documentationIn e' := by
  have hfiltered := List.rel_filter
    (p := fun e : Xml.Element => e.isNamed QName.xsdSpace "documentation")
    (q := fun e : Xml.Element => e.isNamed QName.xsdSpace "documentation")
    (fun e e' (he : e.Reprefixes e') => by dsimp only; rw [he.isNamed]) h.elements
  rw [documentationIn, documentationIn, ← List.forall₂_eq_eq_eq]
  exact List.rel_map (fun e e' he => congrArg Text.trim he.characters) hfiltered

theorem documentationOf_reprefixed {nodes nodes' : List Node}
    (h : List.Forall₂ Node.Reprefixes nodes nodes') :
    documentationOf nodes = documentationOf nodes' := by
  have htexts : nodes.flatMap remarksOf = nodes'.flatMap remarksOf := by
    induction h with
    | nil => rfl
    | cons hn _ ih =>
        rw [List.flatMap_cons, List.flatMap_cons, ih]
        cases hn with
        | element he =>
            rw [remarksOf, remarksOf, remarksIn, remarksIn, he.isNamed,
              documentationIn_reprefixed he]
        | text data => rfl
  rw [documentationOf_eq_linesOf, documentationOf_eq_linesOf, htexts]

mutual

theorem ofXml_reprefixed : ∀ {e e' : Xml.Element}, e.space = QName.xsdSpace → e.Reprefixes e' →
    (∀ bindings ∈ e.scopes, AreOrdinary bindings) →
    (∀ bindings ∈ e'.scopes, AreOrdinary bindings) → (ofXml e).Reprefixes (ofXml e')
  | ⟨_, _, _, _, children⟩, _, hspace, .mk ha hc, ho, ho' => by
      obtain rfl := hspace
      rw [Element.scopes, List.forall_mem_cons] at ho ho'
      rw [ofXml, ofXml, documentationOf_reprefixed hc]
      exact .mk ho.1 ho'.1 ha (ofNodes_reprefixed hc ho.2 ho'.2)

theorem ofNodes_reprefixed : ∀ {nodes nodes' : List Node},
    List.Forall₂ Node.Reprefixes nodes nodes' →
    (∀ bindings ∈ scopesOf nodes, AreOrdinary bindings) →
    (∀ bindings ∈ scopesOf nodes', AreOrdinary bindings) →
    List.Forall₂ Reprefixes (ofNodes nodes) (ofNodes nodes')
  | [], _, .nil, _, _ => .nil
  | .element e :: rest, _, .cons (.element h) hrest, ho, ho' => by
      rw [scopesOf, List.forall_mem_append] at ho ho'
      have hmore := ofNodes_reprefixed hrest ho.2 ho'.2
      rw [ofNodes, ofNodes, ← h.space, ← h.name]
      split
      · next hown => exact .cons (ofXml_reprefixed hown.1 h ho.1 ho'.1) hmore
      · exact hmore
  | .text data :: rest, _, .cons (.text _) hrest, ho, ho' => by
      rw [ofNodes, ofNodes]
      exact ofNodes_reprefixed hrest ho ho'

end

namespace Reprefixes

variable {c c' : Construct} (h : c.Reprefixes c')
include h

theorem name : c.name = c'.name := by
  cases h
  rfl

theorem documentation : c.documentation = c'.documentation := by
  cases h
  rfl

theorem children : List.Forall₂ Reprefixes c.children c'.children := by
  cases h
  assumption

theorem isGroup : c.isGroup = c'.isGroup := by rw [Construct.isGroup, Construct.isGroup, h.name]

theorem concernsAttributes : c.concernsAttributes = c'.concernsAttributes := by
  rw [Construct.concernsAttributes, Construct.concernsAttributes, h.name]

/-- Neither of the constructs has an attribute, or both have it, with values that differ in nothing
but prefixes. -/
theorem attribute?_cases (name : String) :
    (c.attribute? name = none ∧ c'.attribute? name = none) ∨
    ∃ a a' : Xml.Attribute, c.attribute? name = some a.value ∧ c'.attribute? name = some a'.value ∧
      a.space = none ∧ a.name = name ∧ AreOrdinary c.bindings ∧ AreOrdinary c'.bindings ∧
      a.Reprefixes QName.xsdSpace c.bindings c'.bindings a' := by
  obtain ⟨ho, ho', ha, -⟩ := h
  unfold attribute? attributes bindings
  induction ha with
  | nil => exact .inl ⟨rfl, rfl⟩
  | @cons a a' _ _ haa' _ ih =>
      rw [List.find?_cons, List.find?_cons, ← haa'.space, ← haa'.name]
      cases hfound : a.space == none && a.name == name with
      | false => exact ih
      | true =>
          obtain ⟨hspace, hname⟩ := Bool.and_eq_true_iff.1 hfound
          exact .inr ⟨a, a', rfl, rfl, eq_of_beq hspace, eq_of_beq hname, ho, ho', haa'⟩

/-- An attribute that holds no names has the same value. -/
theorem attribute? (name : String) (hn : name ∉ "memberTypes" :: Attribute.namingNames) :
    c.attribute? name = c'.attribute? name := by
  rw [List.mem_cons, not_or] at hn
  rcases h.attribute?_cases name with ⟨ha, ha'⟩ | ⟨a, a', ha, ha', -, rfl, -, -, hsame⟩
  · rw [ha, ha']
  · rw [ha, ha', hsame.other (fun hholds => hn.2 hholds.2.2) fun hholds => hn.1 hholds.2.2]

end Reprefixes

end Construct

namespace Schema

open Reading

variable {c c' : Construct} {cs cs' : List Construct}

theorem required_same (h : c.Reprefixes c') (location name : String)
    (hn : name ∉ "memberTypes" :: Attribute.namingNames) :
    required location c name = required location c' name := by
  rw [required, required, h.attribute? name hn, h.name]

theorem name?_same (h : c.Reprefixes c') (name : String) (hn : name ∈ Attribute.namingNames) :
    name? c name = name? c' name := by
  unfold name? nameOf
  rcases h.attribute?_cases name with ⟨ha, ha'⟩ | ⟨a, a', ha, ha', hspace, rfl, ho, ho', hsame⟩
  · rw [ha, ha']
  · rw [ha, ha']
    dsimp only
    rw [Construct.resolve_same ho ho' (hsame.one ⟨rfl, hspace, hn⟩)]

theorem malformed_bind {α β : Type} (reason : String) (f : α → Reading β) :
    malformed reason >>= f = malformed reason := rfl

/-- A name that has to be there is the same, or missing in both. -/
theorem requiredName_same {α : Type} (h : c.Reprefixes c') (location name : String)
    (hn : name ∈ Attribute.namingNames) (f : QName → Reading α) :
    (required location c name >>= fun text => nameOf c text >>= f) =
      required location c' name >>= fun text => nameOf c' text >>= f := by
  unfold required nameOf
  rcases h.attribute?_cases name with ⟨ha, ha'⟩ | ⟨a, a', ha, ha', hspace, rfl, ho, ho', hsame⟩
  · rw [ha, ha', h.name]
    dsimp only
    rw [malformed_bind, malformed_bind]
  · rw [ha, ha']
    dsimp only
    rw [pure_bind, pure_bind, Construct.resolve_same ho ho' (hsame.one ⟨rfl, hspace, hn⟩)]

theorem namesOf_same (h : c.Reprefixes c') :
    namesOf c (Text.words ((c.attribute? "memberTypes").getD "")) =
      namesOf c' (Text.words ((c'.attribute? "memberTypes").getD "")) := by
  rcases h.attribute?_cases "memberTypes" with
    ⟨ha, ha'⟩ | ⟨a, a', ha, ha', hspace, hname, ho, ho', hsame⟩
  · rw [ha, ha', Option.getD_none, Text.words_empty]
    rfl
  · have hwords := hsame.several ⟨rfl, hspace, hname⟩
    rw [ha, ha', Option.getD_some, Option.getD_some]
    generalize Text.words a.value = words, Text.words a'.value = words' at hwords
    induction hwords with
    | nil => rfl
    | cons hword _ ih => rw [namesOf, namesOf, ih, nameOf, nameOf,
        Construct.resolve_same ho ho' hword]

theorem isQualified_same (h : c.Reprefixes c') (default : Form) :
    isQualified c default = isQualified c' default := by
  rw [isQualified, isQualified, h.attribute? "form" (by decide)]

variable (setting : Setting) (location : String)

/-! ### Simple types -/

theorem facets_same : ∀ {cs cs' : List Construct}, List.Forall₂ Construct.Reprefixes cs cs' →
    facets setting location cs = facets setting location cs'
  | [], _, .nil => rfl
  | c :: rest, c' :: rest', .cons h hrest => by
      rw [facets, facets, required_same h location "value" (by decide), h.name,
        h.concernsAttributes, facets_same hrest]

mutual

theorem simpleType_same : ∀ {cs cs' : List Construct}, List.Forall₂ Construct.Reprefixes cs cs' →
    simpleType setting location cs = simpleType setting location cs'
  | [], _, .nil => rfl
  | c :: rest, c' :: rest', .cons h hrest => by
      rw [simpleType, simpleType, h.name, simpleBase_same "base" (by decide) h,
        facets_same setting location h.children, simpleBase_same "itemType" (by decide) h,
        namesOf_same h, inlineMembers_same h, simpleType_same hrest]

theorem simpleBase_same (naming : String) (hn : naming ∈ Attribute.namingNames) :
    ∀ {c c' : Construct}, c.Reprefixes c' →
      simpleBase setting location naming c = simpleBase setting location naming c'
  | .mk name attributes bindings documentation children, .mk _ _ _ _ children', h => by
      have hc : List.Forall₂ Construct.Reprefixes children children' := h.children
      rw [simpleBase, simpleBase, name?_same h naming hn, h.name, nestedSimple_same hc]

theorem nestedSimple_same : ∀ {cs cs' : List Construct},
    List.Forall₂ Construct.Reprefixes cs cs' →
      nestedSimple setting location cs = nestedSimple setting location cs'
  | [], _, .nil => rfl
  | .mk name attributes bindings documentation children :: rest, _, .cons (.mk _ _ _ hc) hrest => by
      rw [nestedSimple, nestedSimple, simpleType_same hc, nestedSimple_same hrest]

theorem inlineMembers_same : ∀ {c c' : Construct}, c.Reprefixes c' →
    inlineMembers setting location c = inlineMembers setting location c'
  | .mk name attributes bindings documentation children, _, .mk _ _ _ hc => by
      rw [inlineMembers, inlineMembers, inlineTypes_same hc]

theorem inlineTypes_same : ∀ {cs cs' : List Construct},
    List.Forall₂ Construct.Reprefixes cs cs' →
      inlineTypes setting location cs = inlineTypes setting location cs'
  | [], _, .nil => rfl
  | .mk name attributes bindings documentation children :: rest, _, .cons (.mk _ _ _ hc) hrest => by
      rw [inlineTypes, inlineTypes, simpleType_same hc, inlineTypes_same hrest]

end

/-! ### Attributes -/

theorem attributeOf_same (name : QName) (qualified : Bool) (h : c.Reprefixes c') :
    attributeOf setting name qualified location c =
      attributeOf setting name qualified location c' := by
  unfold attributeOf
  rw [name?_same h "type" (by decide), nestedSimple_same setting location h.children,
    h.attribute? "default" (by decide), h.attribute? "fixed" (by decide), h.documentation]

theorem use_same (h : c.Reprefixes c') : use location c = use location c' := by
  rw [use, use, h.attribute? "use" (by decide)]

theorem attributeUse_same (h : c.Reprefixes c') :
    attributeUse setting location c = attributeUse setting location c' := by
  unfold attributeUse
  rw [use_same location h, name?_same h "ref" (by decide), h.attribute? "default" (by decide),
    h.attribute? "fixed" (by decide), required_same h location "name" (by decide),
    isQualified_same h]
  simp only [attributeOf_same setting _ _ _ h]

theorem attributeUses_same {cs cs' : List Construct}
    (h : List.Forall₂ Construct.Reprefixes cs cs') :
    attributeUses setting location cs = attributeUses setting location cs' := by
  induction h with
  | nil => rfl
  | cons h _ ih =>
      rw [attributeUses, attributeUses, h.name, attributeUse_same setting location h, ih,
        requiredName_same h location "ref" (by decide)]

/-! ### Particles and complex types -/

theorem occurs_same (h : c.Reprefixes c') : occurs location c = occurs location c' := by
  rw [occurs, occurs, h.attribute? "minOccurs" (by decide), h.attribute? "maxOccurs" (by decide)]

theorem groupRef_same (h : c.Reprefixes c') : groupRef location c = groupRef location c' := by
  rw [groupRef, groupRef, occurs_same location h]
  simp only [requiredName_same h location "ref" (by decide)]

theorem elementOf_same (name : QName) (qualified : Bool) (h : c.Reprefixes c')
    (type : ElementType) : elementOf setting name qualified location c type =
      elementOf setting name qualified location c' type := by
  unfold elementOf
  rw [h.attribute? "substitutionGroup" (by decide), h.attribute? "nillable" (by decide),
    h.attribute? "default" (by decide), h.attribute? "fixed" (by decide), h.documentation]

theorem namedType_same (h : c.Reprefixes c') : namedType c = namedType c' := by
  rw [namedType, namedType, name?_same h "type" (by decide)]

theorem derivationOf?_same (h : c.Reprefixes c') : derivationOf? c = derivationOf? c' := by
  rw [derivationOf?, derivationOf?, h.name]

theorem derivationBase_same (h : c.Reprefixes c') :
    derivationBase location c = derivationBase location c' := by
  have hname := requiredName_same h location "base" (by decide) pure
  simp only [bind_pure] at hname
  exact hname

theorem simpleContent_same (type : ComplexType) (outer : String) {cs cs' : List Construct}
    (h : List.Forall₂ Construct.Reprefixes cs cs') :
    simpleContent setting location type outer cs =
      simpleContent setting location type outer cs' := by
  induction h with
  | nil => rfl
  | cons h _ ih =>
      rw [simpleContent, simpleContent, derivationOf?_same h, ih, derivationBase_same location h,
        facets_same setting location h.children, attributeUses_same setting location h.children]

mutual

theorem complexParts_same : ∀ {cs cs' : List Construct},
    List.Forall₂ Construct.Reprefixes cs cs' → ∀ (location : String) (type : ComplexType),
      complexParts setting location type cs = complexParts setting location type cs'
  | [], _, .nil, _, _ => rfl
  | c :: rest, c' :: rest', .cons h hrest, location, type => by
      rw [complexParts, complexParts, h.isGroup, h.name, h.concernsAttributes,
        h.attribute? "mixed" (by decide), groupParticle_same h, groupRef_same location h]
      simp only [complexParts_same hrest, complexContent_same h,
        simpleContent_same setting location _ _ h.children]

theorem complexContent_same : ∀ {c c' : Construct}, c.Reprefixes c' →
    ∀ (location : String) (type : ComplexType),
      complexContent setting location type c = complexContent setting location type c'
  | .mk name attributes bindings documentation children, _, .mk _ _ _ hc, location, type => by
      rw [complexContent, complexContent, derivedContent_same hc]

theorem derivedContent_same : ∀ {cs cs' : List Construct},
    List.Forall₂ Construct.Reprefixes cs cs' →
      ∀ (location : String) (type : ComplexType) (outer : String),
        derivedContent setting location type outer cs =
          derivedContent setting location type outer cs'
  | [], _, .nil, _, _, _ => rfl
  | .mk name attributes bindings documentation inner :: rest, .mk _ _ _ _ inner' :: rest',
      .cons h hrest, location, type, outer => by
      have hc : List.Forall₂ Construct.Reprefixes inner inner' := h.children
      rw [derivedContent, derivedContent, derivationOf?_same h, derivedContent_same hrest,
        derivationBase_same location h, derivedParticle_same hc,
        attributeUses_same setting location hc]

theorem derivedParticle_same : ∀ {cs cs' : List Construct},
    List.Forall₂ Construct.Reprefixes cs cs' →
      ∀ (location : String) (particle : Option Particle),
        derivedParticle setting location particle cs =
          derivedParticle setting location particle cs'
  | [], _, .nil, _, _ => rfl
  | c :: rest, c' :: rest', .cons h hrest, location, particle => by
      rw [derivedParticle, derivedParticle, h.isGroup, h.name, h.concernsAttributes,
        groupParticle_same h, groupRef_same location h]
      simp only [derivedParticle_same hrest]

theorem groupParticle_same : ∀ {c c' : Construct}, c.Reprefixes c' → ∀ location : String,
    groupParticle setting location c = groupParticle setting location c'
  | .mk name attributes bindings documentation children, .mk _ _ _ _ children', h, location => by
      have hc : List.Forall₂ Construct.Reprefixes children children' := h.children
      obtain rfl : name = _ := h.name
      rw [groupParticle, groupParticle, occurs_same location h, particles_same hc]

theorem particles_same : ∀ {cs cs' : List Construct},
    List.Forall₂ Construct.Reprefixes cs cs' → ∀ location : String,
      particles setting location cs = particles setting location cs'
  | [], _, .nil, _ => rfl
  | c :: rest, c' :: rest', .cons h hrest, location => by
      rw [particles, particles, h.isGroup, h.name, elementParticle_same h, groupParticle_same h,
        groupRef_same location h, occurs_same location h, particles_same hrest]

theorem elementParticle_same : ∀ {c c' : Construct}, c.Reprefixes c' → ∀ location : String,
    elementParticle setting location c = elementParticle setting location c'
  | .mk name attributes bindings documentation children, .mk _ _ _ _ children', h, location => by
      have hc : List.Forall₂ Construct.Reprefixes children children' := h.children
      rw [elementParticle, elementParticle, occurs_same location h, name?_same h "ref" (by decide),
        required_same h location "name" (by decide), isQualified_same h, namedType_same h]
      simp only [elementType_same hc, elementOf_same setting _ _ _ h]

theorem elementType_same : ∀ {cs cs' : List Construct},
    List.Forall₂ Construct.Reprefixes cs cs' → ∀ (location : String) (type : ElementType),
      elementType setting location type cs = elementType setting location type cs'
  | [], _, .nil, _, _ => rfl
  | .mk name attributes bindings documentation children :: rest, .mk _ _ _ _ children' :: rest',
      .cons h hrest, location, type => by
      have hc : List.Forall₂ Construct.Reprefixes children children' := h.children
      rw [elementType, elementType, h.name, h.attribute? "mixed" (by decide),
        simpleType_same setting location hc, attributeUses_same setting location hc]
      simp only [complexParts_same hc, elementType_same hrest]

end

theorem complexType_same (h : c.Reprefixes c') :
    complexType setting location c = complexType setting location c' := by
  rw [complexType, complexType, attributeUses_same setting location h.children,
    h.attribute? "mixed" (by decide)]
  simp only [complexParts_same setting h.children]

theorem globalElement_same (name : String) (h : c.Reprefixes c') :
    globalElement setting name location c = globalElement setting name location c' := by
  rw [globalElement, globalElement, namedType_same h]
  simp only [elementType_same setting h.children, elementOf_same setting _ _ _ h]

/-! ### Documents -/

/-- The first model group among some constructs. -/
theorem find?_isGroup_same : ∀ {cs cs' : List Construct},
    List.Forall₂ Construct.Reprefixes cs cs' →
      Option.Rel Construct.Reprefixes (cs.find? Construct.isGroup) (cs'.find? Construct.isGroup)
  | [], _, .nil => .none
  | c :: rest, c' :: rest', .cons h hrest => by
      rw [List.find?_cons, List.find?_cons, ← h.isGroup]
      split
      · exact .some h
      · exact find?_isGroup_same hrest

theorem topLevel_same (schema : Schema) (h : c.Reprefixes c') :
    topLevel setting schema c = topLevel setting schema c' := by
  have hgroup := find?_isGroup_same h.children
  unfold topLevel
  rw [h.name, h.attribute? "schemaLocation" (by decide), h.attribute? "namespace" (by decide),
    required_same h "schema" "name" (by decide), h.documentation]
  simp only [simpleType_same setting _ h.children, complexType_same setting _ h,
    globalElement_same setting _ _ h, attributeOf_same setting _ _ _ h,
    attributeUses_same setting _ h.children]
  generalize c.children.find? Construct.isGroup = inner,
    c'.children.find? Construct.isGroup = inner' at hgroup
  cases hgroup with
  | none => rfl
  | some hinner =>
      dsimp only
      rw [hinner.name]
      simp only [particles_same setting hinner.children]

theorem topLevels_same (schema : Schema) (h : List.Forall₂ Construct.Reprefixes cs cs') :
    topLevels setting schema cs = topLevels setting schema cs' := by
  induction h generalizing schema with
  | nil => rfl
  | cons h _ ih =>
      rw [topLevels, topLevels, topLevel_same setting schema h]
      simp only [ih]

/-- The schema with other prefixes to remember of its root. -/
def withPrefixes (prefixes : List (String × String)) (schema : Schema) : Schema :=
  { schema with prefixes }

theorem isSteady_withPrefixes (prefixes : List (String × String)) :
    IsSteady (withPrefixes prefixes) where
  imports _ _ := rfl
  types _ _ := rfl
  elements _ _ := rfl
  groups _ _ := rfl
  attributes _ _ := rfl
  attributeGroups _ _ := rfl

theorem topLevels_changes {f : Schema → Schema} (hf : IsSteady f) (schema : Schema)
    (cs : List Construct) :
    Changes f (topLevels setting (f schema) cs) (topLevels setting schema cs) := by
  induction cs generalizing schema with
  | nil => exact .pure rfl
  | cons c rest ih =>
      have hfirst := topLevel_changes hf setting schema c
      unfold Changes at hfirst ih ⊢
      rw [topLevels, topLevels, hfirst, bind_assoc, bind_assoc]
      simp only [pure_bind, ih]

/-- A text is another one with other prefixes. -/
def IsReprefixed (text text' : String) : Prop :=
  text = text' ∨ ∃ e e', Xml.Element.ofText? (Text.trimStart text) = some e ∧
    Xml.Element.ofText? (Text.trimStart text') = some e' ∧ e.Reprefixes e'

/-- What was read of a file but for the prefixes of its root, or what is wrong with it. -/
def readingOf (filename text : String) : Except Problem (Schema × List Problem) :=
  (ofText filename text).map fun read => (read.1.withPrefixes [], read.2)

/-- Texts that differ in nothing but prefixes are read alike, with the same notes or the same
fault. -/
theorem ofText_reprefixed (filename : String) {text text' : String} (h : IsReprefixed text text') :
    readingOf filename text = readingOf filename text' := by
  obtain rfl | ⟨e, e', he, he', h⟩ := h
  · rfl
  unfold readingOf ofText
  rw [he, he']
  dsimp only
  rw [h.isNamed, h.name]
  split
  · next hnamed =>
      have hspace : e.space = QName.xsdSpace := by
        rw [h.space]
        exact eq_of_beq (Bool.and_eq_true_iff.1 hnamed).1
      have hroot := Construct.ofXml_reprefixed hspace h (areOrdinary_ofText? he)
        (areOrdinary_ofText? he')
      generalize Construct.ofXml e = root, Construct.ofXml e' = root' at hroot
      have hsetting : Setting.ofRoot filename root = .ofRoot filename root' := by
        rw [Setting.ofRoot, Setting.ofRoot, hroot.attribute? "targetNamespace" (by decide),
          hroot.attribute? "elementFormDefault" (by decide),
          hroot.attribute? "attributeFormDefault" (by decide)]
      have hstart : ofRoot (.ofRoot filename root') root' =
          (ofRoot (.ofRoot filename root') root).withPrefixes root'.bindings := by
        rw [ofRoot, ofRoot, hroot.documentation]
        rfl
      have hread : topLevels (.ofRoot filename root') (ofRoot (.ofRoot filename root') root')
          root'.children [] =
            (topLevels (.ofRoot filename root') (ofRoot (.ofRoot filename root') root)
              root'.children [] >>= fun r => .ok (r.1.withPrefixes root'.bindings, r.2)) := by
        rw [hstart]
        exact congrFun (topLevels_changes _ (isSteady_withPrefixes _) _ root'.children) []
      rw [hsetting, topLevels_same _ _ hroot.children, hread]
      cases topLevels (.ofRoot filename root') (ofRoot (.ofRoot filename root') root)
        root'.children [] <;> rfl
  · rfl

end Schema

end Crosswalk
