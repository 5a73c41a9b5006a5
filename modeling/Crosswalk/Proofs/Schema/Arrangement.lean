import Crosswalk.Proofs.Schema.Closure
import Crosswalk.Proofs.Schema
import Mathlib.Data.List.Perm.Basic

/-!
# The order of declarations

Each construct at the top of a document is read on its own: what it adds to the schema does not
depend on those before it. So a document whose declarations are in another order can be read if and
only if the first one can, and its schema has the same declarations.
-/

namespace Crosswalk

namespace Schema

open Reading

/-! ### Reading on its own -/

/-- What one schema has, behind what another one has. -/
def append (s t : Schema) : Schema :=
  { s with
    imports := s.imports ++ t.imports
    types := s.types ++ t.types
    elements := s.elements ++ t.elements
    groups := s.groups ++ t.groups
    attributes := s.attributes ++ t.attributes
    attributeGroups := s.attributeGroups ++ t.attributeGroups }

variable {setting : Setting} {root : Construct}

theorem append_ofRoot (s : Schema) (setting : Setting) (root : Construct) :
    s.append (ofRoot setting root) = s := by
  simp [append, ofRoot]

/-- A change of a schema that keeps whatever is added to it behind what it has. -/
structure IsSteady (f : Schema → Schema) : Prop where
  imports : ∀ t added, f { t with imports := t.imports ++ added } =
    { f t with imports := (f t).imports ++ added }
  types : ∀ t added, f { t with types := t.types ++ added } =
    { f t with types := (f t).types ++ added }
  elements : ∀ t added, f { t with elements := t.elements ++ added } =
    { f t with elements := (f t).elements ++ added }
  groups : ∀ t added, f { t with groups := t.groups ++ added } =
    { f t with groups := (f t).groups ++ added }
  attributes : ∀ t added, f { t with attributes := t.attributes ++ added } =
    { f t with attributes := (f t).attributes ++ added }
  attributeGroups : ∀ t added, f { t with attributeGroups := t.attributeGroups ++ added } =
    { f t with attributeGroups := (f t).attributeGroups ++ added }

theorem isSteady_append (s : Schema) : IsSteady s.append where
  imports _ _ := by simp only [append, List.append_assoc]
  types _ _ := by simp only [append, List.append_assoc]
  elements _ _ := by simp only [append, List.append_assoc]
  groups _ _ := by simp only [append, List.append_assoc]
  attributes _ _ := by simp only [append, List.append_assoc]
  attributeGroups _ _ := by simp only [append, List.append_assoc]

/-- A reading gives what another one gives, changed. -/
def Changes (f : Schema → Schema) (c d : Reading Schema) : Prop := c = d >>= fun t => pure (f t)

namespace Changes

variable {f : Schema → Schema} {t u : Schema} {c d c' d' : Reading Schema}

theorem pure (h : f u = t) : Changes f (Pure.pure t) (Pure.pure u) := h ▸ rfl

theorem malformed (reason : String) :
    Changes f (Reading.malformed reason) (Reading.malformed reason) := rfl

theorem bind {α : Type} (x : Reading α) {g g' : α → Reading Schema}
    (h : ∀ a, Changes f (g a) (g' a)) : Changes f (x >>= g) (x >>= g') := by
  unfold Changes
  rw [bind_assoc]
  exact bind_congr h

theorem ite {p : Prop} [Decidable p] (h : Changes f c d) (h' : Changes f c' d') :
    Changes f (if p then c else c') (if p then d else d') := by
  split
  · exact h
  · exact h'

end Changes

/-- A schema may be changed before or after a construct is worked into it. -/
theorem topLevel_changes {f : Schema → Schema} (hf : IsSteady f) (setting : Setting) (t : Schema)
    (c : Construct) : Changes f (topLevel setting (f t) c) (topLevel setting t c) := by
  unfold topLevel
  refine .ite (.pure (hf.imports t _)) <| .ite (.pure (hf.imports t _)) <|
    .ite (.bind _ fun _ => .pure (hf.imports t _)) <|
    .ite (.bind _ fun _ => .bind _ fun _ => .pure (hf.types t _)) <|
    .ite (.bind _ fun _ => .bind _ fun _ => .pure (hf.types t _)) <|
    .ite (.bind _ fun _ => .bind _ fun _ => .pure (hf.elements t _)) <|
    .ite (.bind _ fun name => ?_) <|
    .ite (.bind _ fun _ => .bind _ fun _ => .pure (hf.attributes t _)) <|
    .ite (.bind _ fun _ => .bind _ fun _ => .pure (hf.attributeGroups t _)) <|
    .bind _ fun _ => .pure rfl
  dsimp only
  split
  · exact .malformed _
  · exact .bind _ fun _ => .pure (hf.groups t _)

theorem topLevel_eq (root : Construct) (s : Schema) (c : Construct) (notes : List Problem) :
    topLevel setting s c notes =
      (topLevel setting (ofRoot setting root) c []).map fun r => (s.append r.1, notes ++ r.2) := by
  have hadds : Changes s.append (topLevel setting s c)
      (topLevel setting (ofRoot setting root) c) := by
    have h := topLevel_changes (isSteady_append s) setting (ofRoot setting root) c
    rwa [append_ofRoot] at h
  have hrun : topLevel setting s c notes = (topLevel setting (ofRoot setting root) c notes >>=
      fun r => .ok (s.append r.1, r.2)) := congrFun hadds notes
  rw [hrun, ((Reading.Plain.isClosed setting).topLevel (ofRoot setting root) c).independent]
  cases topLevel setting (ofRoot setting root) c [] <;> rfl

/-- What a construct adds to the schema of a root, if it can be read. -/
def part? (setting : Setting) (root : Construct) (c : Construct) : Option Schema :=
  (topLevel setting (ofRoot setting root) c []).toOption.map (·.1)

/-- Constructs can be read if and only if each of them can, and give what each of them adds. -/
theorem topLevels_eq (root : Construct) (cs : List Construct) : ∀ (s : Schema)
    (notes : List Problem), (topLevels setting s cs notes).toOption.map (·.1) =
      if cs.all fun c => (part? setting root c).isSome then
        some ((cs.filterMap (part? setting root)).foldl append s)
      else none := by
  induction cs with
  | nil => exact fun _ _ => rfl
  | cons c rest ih =>
      intro s notes
      have hrun : topLevels setting s (c :: rest) notes = (topLevel setting s c notes >>=
        fun r => topLevels setting r.1 rest r.2) := rfl
      rw [hrun, topLevel_eq root, List.all_cons, part?]
      cases hc : topLevel setting (ofRoot setting root) c [] with
      | error reason => rfl
      | ok r =>
          have hpart : part? setting root c = some r.1 := by rw [part?, hc]; rfl
          rw [List.filterMap_cons_some hpart]
          exact ih _ _

section

variable {β : Type} {f : Schema → List β} (hf : ∀ s t : Schema, f (s.append t) = f s ++ f t)
include hf

theorem foldl_append_eq (parts : List Schema) (s : Schema) :
    f (parts.foldl append s) = f s ++ parts.flatMap f := by
  induction parts generalizing s with
  | nil => exact (List.append_nil _).symm
  | cons t rest ih => rw [List.foldl_cons, ih, hf, List.flatMap_cons, List.append_assoc]

end

/-! ### Schemas with their declarations in another order -/

/-- Two schemas are alike, apart from the order of their declarations. -/
structure Rearranges (s t : Schema) : Prop where
  targetSpace : s.targetSpace = t.targetSpace
  prefixes : s.prefixes = t.prefixes
  imports : s.imports = t.imports
  documentation : s.documentation = t.documentation
  types : s.types.Perm t.types
  elements : s.elements.Perm t.elements
  groups : s.groups.Perm t.groups
  attributes : s.attributes.Perm t.attributes
  attributeGroups : s.attributeGroups.Perm t.attributeGroups

theorem Rearranges.refl (s : Schema) : s.Rearranges s :=
  ⟨rfl, rfl, rfl, rfl, .refl _, .refl _, .refl _, .refl _, .refl _⟩

theorem Rearranges.symm {s t : Schema} (h : s.Rearranges t) : t.Rearranges s :=
  ⟨h.targetSpace.symm, h.prefixes.symm, h.imports.symm, h.documentation.symm, h.types.symm,
    h.elements.symm, h.groups.symm, h.attributes.symm, h.attributeGroups.symm⟩

/-- The names of the constructs that declare something. -/
def declaringNames : List String :=
  ["simpleType", "complexType", "element", "group", "attribute", "attributeGroup"]

/-- A construct that declares something adds no import. -/
theorem imports_of_part? {c : Construct} (hc : c.name ∈ declaringNames) {t : Schema}
    (h : part? setting root c = some t) : t.imports = [] := by
  have two : ∀ {α β : Type} {x : Reading α} {y : α → Reading β} {f : α → β → Schema},
      (∀ a b, (f a b).imports = []) →
        Gives (x >>= fun a => y a >>= fun b => pure (f a b)) (·.imports = []) := fun h =>
    gives_bind_any fun a => gives_bind_any fun b => gives_pure (h a b)
  have hgives : Gives (topLevel setting (ofRoot setting root) c) (·.imports = []) := by
    have hne : c.name ≠ "import" ∧ c.name ≠ "include" ∧ c.name ≠ "redefine" ∧
        c.name ≠ "override" := by
      simp only [declaringNames, List.mem_cons, List.not_mem_nil, or_false] at hc
      rcases hc with hc | hc | hc | hc | hc | hc <;> rw [hc] <;> decide
    unfold topLevel
    rw [if_neg hne.1, if_neg hne.2.1, if_neg (not_or.2 hne.2.2)]
    refine gives_ite (two fun _ _ => rfl) <| gives_ite (two fun _ _ => rfl) <|
      gives_ite (two fun _ _ => rfl) <| gives_ite (gives_bind_any fun name => ?_) <|
      gives_ite (two fun _ _ => rfl) <| gives_ite (two fun _ _ => rfl) <|
      gives_bind_any fun _ => gives_pure rfl
    dsimp only
    split
    · exact gives_malformed
    · exact gives_bind_any fun _ => gives_pure rfl
  obtain ⟨r, hr, rfl⟩ := Option.map_eq_some_iff.1 h
  cases hread : topLevel setting (ofRoot setting root) c [] with
  | error reason => rw [hread] at hr; exact nomatch hr
  | ok result =>
      rw [hread] at hr
      obtain rfl := Option.some.inj hr
      exact hgives [] _ _ hread

theorem flatMap_imports (cs : List Construct) :
    (cs.filterMap (part? setting root)).flatMap imports =
      ((cs.filter (·.name ∉ declaringNames)).filterMap (part? setting root)).flatMap imports := by
  induction cs with
  | nil => rfl
  | cons c rest ih =>
      by_cases hdeclares : c.name ∈ declaringNames
      · rw [List.filter_cons_of_neg (by simpa using hdeclares), ← ih]
        cases hc : part? setting root c with
        | none => rw [List.filterMap_cons_none hc]
        | some t =>
            rw [List.filterMap_cons_some hc, List.flatMap_cons, imports_of_part? hdeclares hc,
              List.nil_append]
      · rw [List.filter_cons_of_pos (by simpa using hdeclares)]
        cases hc : part? setting root c with
        | none => rw [List.filterMap_cons_none hc, List.filterMap_cons_none hc, ih]
        | some t =>
            rw [List.filterMap_cons_some hc, List.filterMap_cons_some hc, List.flatMap_cons,
              List.flatMap_cons, ih]

/-- Constructs in another order can be read if and only if the first ones can, and then they give the
same declarations. -/
theorem topLevels_rearranged (setting : Setting) (root : Construct) {cs cs' : List Construct}
    (h : cs.Perm cs')
    (hothers : cs.filter (·.name ∉ declaringNames) = cs'.filter (·.name ∉ declaringNames)) :
    Option.Rel Rearranges
      ((topLevels setting (ofRoot setting root) cs []).toOption.map (·.1))
      ((topLevels setting (ofRoot setting root) cs' []).toOption.map (·.1)) := by
  rw [topLevels_eq root, topLevels_eq root, h.all_eq]
  split
  · have hparts : (cs.filterMap (part? setting root)).Perm (cs'.filterMap (part? setting root)) :=
      h.filterMap _
    have hperm : ∀ {β : Type} (f : Schema → List β),
        (∀ s t : Schema, f (s.append t) = f s ++ f t) →
        (f ((cs.filterMap (part? setting root)).foldl append (ofRoot setting root))).Perm
          (f ((cs'.filterMap (part? setting root)).foldl append (ofRoot setting root))) := by
      intro β f hf
      rw [foldl_append_eq hf, foldl_append_eq hf]
      exact (hparts.flatMap_right f).append_left _
    have hfixed : ∀ (parts : List Schema) (s : Schema),
        (parts.foldl append s).targetSpace = s.targetSpace ∧
        (parts.foldl append s).prefixes = s.prefixes ∧
        (parts.foldl append s).documentation = s.documentation := by
      intro parts
      induction parts with
      | nil => exact fun _ => ⟨rfl, rfl, rfl⟩
      | cons t rest ih => exact fun s => ih (s.append t)
    obtain ⟨hspace, hprefixes, hdocumentation⟩ :=
      hfixed (cs.filterMap (part? setting root)) (ofRoot setting root)
    obtain ⟨hspace', hprefixes', hdocumentation'⟩ :=
      hfixed (cs'.filterMap (part? setting root)) (ofRoot setting root)
    refine .some ⟨hspace.trans hspace'.symm, hprefixes.trans hprefixes'.symm, ?_,
      hdocumentation.trans hdocumentation'.symm, hperm _ fun _ _ => rfl, hperm _ fun _ _ => rfl,
      hperm _ fun _ _ => rfl, hperm _ fun _ _ => rfl, hperm _ fun _ _ => rfl⟩
    rw [foldl_append_eq (f := imports) fun _ _ => rfl,
      foldl_append_eq (f := imports) fun _ _ => rfl, flatMap_imports cs, flatMap_imports cs',
      hothers]
  · exact .none

end Schema

/-! ### Documents with their declarations in another order -/

/-- Whether an element declares something, as a child of the root of a schema document. -/
def Xml.Element.declares (e : Xml.Element) : Bool :=
  e.space == QName.xsdSpace && decide (e.name ∈ Schema.declaringNames)

/-- Two roots are alike, apart from the order of their declarations and from text between them. -/
structure Xml.Element.Rearranges (e e' : Xml.Element) : Prop where
  space : e.space = e'.space
  name : e.name = e'.name
  attributes : e.attributes = e'.attributes
  bindings : e.bindings = e'.bindings
  elements : e.elements.Perm e'.elements
  others : e.elements.filter (!·.declares) = e'.elements.filter (!·.declares)

theorem Xml.Element.Rearranges.symm {e e' : Xml.Element} (h : e.Rearranges e') :
    e'.Rearranges e :=
  ⟨h.space.symm, h.name.symm, h.attributes.symm, h.bindings.symm, h.elements.symm, h.others.symm⟩

namespace Construct

/-- Whether an element is a construct of its own, and no annotation. -/
def isOwn (e : Xml.Element) : Bool :=
  decide (e.space = QName.xsdSpace ∧ e.name ≠ "annotation")

/-- The elements among some nodes. -/
def elementsOf (nodes : List Xml.Node) : List Xml.Element :=
  Xml.Element.elements ⟨"", "", [], [], nodes⟩

theorem elementsOf_element (e : Xml.Element) (rest : List Xml.Node) :
    elementsOf (.element e :: rest) = e :: elementsOf rest := rfl

theorem elementsOf_text (data : String) (rest : List Xml.Node) :
    elementsOf (.text data :: rest) = elementsOf rest := rfl

theorem ofNodes_eq (nodes : List Xml.Node) :
    ofNodes nodes = ((elementsOf nodes).filter isOwn).map ofXml := by
  induction nodes with
  | nil => rfl
  | cons node rest ih =>
      rcases node with e | data
      · rw [ofNodes, elementsOf_element, List.filter_cons, ih]
        by_cases hown : e.space = QName.xsdSpace ∧ e.name ≠ "annotation"
        · rw [if_pos hown, if_pos (show isOwn e = true from decide_eq_true hown), List.map_cons]
        · rw [if_neg hown, if_neg (show ¬ isOwn e = true by simpa [isOwn] using hown)]
      · rw [ofNodes, elementsOf_text, ih]

/-- The constructs that declare nothing are those of elements that declare nothing. -/
theorem filter_ofNodes (nodes : List Xml.Node) :
    (ofNodes nodes).filter (·.name ∉ Schema.declaringNames) =
      (((elementsOf nodes).filter (!·.declares)).filter isOwn).map ofXml := by
  have hsame : ∀ e : Xml.Element, (decide ((ofXml e).name ∉ Schema.declaringNames) && isOwn e) =
      (isOwn e && !e.declares) := by
    rintro ⟨space, name, attributes, bindings, children⟩
    change (decide (name ∉ Schema.declaringNames) && isOwn _) = _
    by_cases hspace : space = QName.xsdSpace
    · simp [isOwn, Xml.Element.declares, hspace, Bool.and_comm]
    · simp [isOwn, hspace]
  rw [ofNodes_eq, List.filter_map, List.filter_filter, List.filter_filter]
  exact congrArg _ (List.filter_congr fun e _ => hsame e)

/-- The documentation texts in an element, if it is an annotation. -/
def remarksIn (e : Xml.Element) : List String :=
  if e.isNamed QName.xsdSpace "annotation" then documentationIn e else []

/-- An element that declares something is no annotation. -/
theorem remarksIn_of_declares {e : Xml.Element} (h : e.declares = true) : remarksIn e = [] := by
  have hname : e.name ∈ Schema.declaringNames := of_decide_eq_true (Bool.and_eq_true_iff.1 h).2
  have hne : e.name ≠ "annotation" := fun heq => absurd (heq ▸ hname) (by decide)
  rw [remarksIn, Xml.Element.isNamed, beq_false_of_ne hne, Bool.and_false]
  rfl

/-- The documentation texts in a node. -/
def remarksOf : Xml.Node → List String
  | .element e => remarksIn e
  | .text _ => []

/-- The texts that are not empty, a line for each. -/
def linesOf (texts : List String) : Option String :=
  match texts.filter (· ≠ "") with
  | [] => none
  | t :: rest => some (Text.join "\n" (t :: rest))

theorem documentationOf_eq_linesOf (nodes : List Xml.Node) :
    documentationOf nodes = linesOf (nodes.flatMap remarksOf) := rfl

/-- Elements that declare something do not contribute to the documentation. -/
theorem documentationOf_eq (nodes : List Xml.Node) : documentationOf nodes =
    linesOf (((elementsOf nodes).filter (!·.declares)).flatMap remarksIn) := by
  have htexts : nodes.flatMap remarksOf =
      ((elementsOf nodes).filter (!·.declares)).flatMap remarksIn := by
    induction nodes with
    | nil => rfl
    | cons node rest ih =>
        rcases node with e | data
        · rw [List.flatMap_cons, elementsOf_element, ih]
          cases hdeclares : e.declares with
          | true =>
              rw [List.filter_cons_of_neg (by simp [hdeclares])]
              exact congrArg (· ++ _) (remarksIn_of_declares hdeclares)
          | false =>
              rw [List.filter_cons_of_pos (by simp [hdeclares]), List.flatMap_cons, remarksOf]
        · rw [List.flatMap_cons, elementsOf_text, ih]
          rfl
  rw [documentationOf_eq_linesOf, htexts]

end Construct

namespace Schema

/-- Roots that are alike have the same declarations, and the same of everything else. -/
theorem ofXml_rearranged {e e' : Xml.Element} (h : e.Rearranges e') :
    ∃ documentation cs cs',
      Construct.ofXml e = .mk e.name e.attributes e.bindings documentation cs ∧
      Construct.ofXml e' = .mk e.name e.attributes e.bindings documentation cs' ∧
      cs.Perm cs' ∧
      cs.filter (·.name ∉ declaringNames) = cs'.filter (·.name ∉ declaringNames) := by
  obtain ⟨space, name, attributes, bindings, nodes⟩ := e
  obtain ⟨space', name', attributes', bindings', nodes'⟩ := e'
  obtain ⟨rfl, rfl, rfl, rfl, hp, ho⟩ := h
  refine ⟨Construct.documentationOf nodes, Construct.ofNodes nodes, Construct.ofNodes nodes', rfl,
    congrArg (fun d => Construct.mk name attributes bindings d (Construct.ofNodes nodes')) ?_,
    ?_, ?_⟩
  · have ho : (Construct.elementsOf nodes).filter (!·.declares) =
        (Construct.elementsOf nodes').filter (!·.declares) := ho
    rw [Construct.documentationOf_eq, Construct.documentationOf_eq, ho]
  · rw [Construct.ofNodes_eq, Construct.ofNodes_eq]
    exact (hp.filter _).map _
  · rw [Construct.filter_ofNodes, Construct.filter_ofNodes]
    exact congrArg (fun l => (l.filter Construct.isOwn).map Construct.ofXml) ho

/-- A text is another one with the declarations of its root in another order. -/
def IsRearranged (text text' : String) : Prop :=
  text = text' ∨ ∃ e e', Xml.Element.ofText? (Text.trimStart text) = some e ∧
    Xml.Element.ofText? (Text.trimStart text') = some e' ∧ e.Rearranges e'

theorem IsRearranged.symm {text text' : String} (h : IsRearranged text text') :
    IsRearranged text' text :=
  h.imp Eq.symm fun ⟨e, e', he, he', hrearranges⟩ => ⟨e', e, he', he, hrearranges.symm⟩

/-- What is read from a file: the reason why it is malformed becomes a problem. -/
def reported {α : Type} (filename : String) : Except String α → Except Problem α
  | .ok result => .ok result
  | .error reason => .error (.malformed filename reason)

theorem toOption_reported {α : Type} (filename : String) (read : Except String α) :
    (reported filename read).toOption = read.toOption := by
  cases read <;> rfl

theorem ofText_eq_reported (filename : String) {text : String} {e : Xml.Element}
    (he : Xml.Element.ofText? (Text.trimStart text) = some e)
    (hnamed : e.isNamed QName.xsdSpace "schema" = true) : ofText filename text =
      reported filename (topLevels (.ofRoot filename (.ofXml e))
        (ofRoot (.ofRoot filename (.ofXml e)) (.ofXml e)) (Construct.ofXml e).children []) := by
  unfold ofText
  simp only [he, hnamed, if_true]
  cases topLevels (.ofRoot filename (.ofXml e)) (ofRoot (.ofRoot filename (.ofXml e)) (.ofXml e))
    (Construct.ofXml e).children [] <;> rfl

/-- A text with its declarations in another order can be read if and only if the first one can, and
then it has the same declarations. -/
theorem ofText_rearranged (filename : String) {text text' : String}
    (h : IsRearranged text text') :
    Option.Rel Rearranges ((ofText filename text).toOption.map (·.1))
      ((ofText filename text').toOption.map (·.1)) := by
  obtain rfl | ⟨e, e', he, he', hrearranges⟩ := h
  · cases (ofText filename text).toOption.map (·.1) with
    | none => exact .none
    | some s => exact .some (.refl s)
  · obtain ⟨documentation, cs, cs', hroot, hroot', hp, ho⟩ := ofXml_rearranged hrearranges
    have hsame : e'.isNamed QName.xsdSpace "schema" = e.isNamed QName.xsdSpace "schema" := by
      rw [Xml.Element.isNamed, Xml.Element.isNamed, hrearranges.space, hrearranges.name]
    cases hnamed : e.isNamed QName.xsdSpace "schema" with
    | true =>
        rw [ofText_eq_reported filename he hnamed,
          ofText_eq_reported filename he' (hsame.trans hnamed), toOption_reported,
          toOption_reported, hroot, hroot']
        exact topLevels_rearranged
          (.ofRoot filename (.mk e.name e.attributes e.bindings documentation cs))
          (.mk e.name e.attributes e.bindings documentation cs) hp ho
    | false =>
        unfold ofText
        simp only [he, he', hsame, hnamed]
        exact .none

end Schema

end Crosswalk
