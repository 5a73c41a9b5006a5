import Crosswalk.Schema.Reader

/-!
# The declarations of a schema that was read

Whatever the text of a file, the named types, model groups and elements read from it lie in the
target namespace of its root. In one file a declaration is therefore known by its local name.
-/

namespace Crosswalk

namespace Schema

namespace Reading

variable {α β : Type} {P : α → Prop} {Q : β → Prop}

/-- Whatever is read satisfies a property. -/
def Gives (c : Reading α) (P : α → Prop) : Prop :=
  ∀ notes a rest, c notes = .ok (a, rest) → P a

theorem gives_pure {a : α} (h : P a) : Gives (pure a) P := by
  intro notes b rest hb
  obtain ⟨rfl, -⟩ := Prod.mk.inj (Except.ok.inj hb)
  exact h

theorem gives_malformed {reason : String} : Gives (malformed reason : Reading α) P :=
  fun _ _ _ h => nomatch h

theorem gives_bind {c : Reading α} {f : α → Reading β} (hc : Gives c P)
    (hf : ∀ a, P a → Gives (f a) Q) : Gives (c >>= f) Q := by
  intro notes b rest hb
  change (c notes >>= fun r => f r.1 r.2) = .ok (b, rest) at hb
  rcases hr : c notes with reason | ⟨a, more⟩
  · rw [hr] at hb
    exact nomatch hb
  · rw [hr] at hb
    exact hf a (hc notes a more hr) more b rest hb

/-- A step of which nothing has to be known. -/
theorem gives_bind_any {c : Reading α} {f : α → Reading β} (hf : ∀ a, Gives (f a) Q) :
    Gives (c >>= f) Q :=
  gives_bind (P := fun _ => True) (fun _ _ _ _ => True.intro) fun a _ => hf a

theorem gives_ite {c d : Reading α} {p : Prop} [Decidable p] (hc : Gives c P) (hd : Gives d P) :
    Gives (if p then c else d) P := by
  split
  · exact hc
  · exact hd

end Reading

open Reading

/-- The types, groups and elements of the schema are in its target namespace. -/
structure IsLocal (schema : Schema) : Prop where
  types : ∀ type ∈ schema.types, type.name.space = schema.targetSpace
  groups : ∀ group ∈ schema.groups, group.name.space = schema.targetSpace
  elements : ∀ element ∈ schema.elements, element.name.space = schema.targetSpace

/-- The schema belongs to a target namespace, and so do its types, groups and elements. -/
def BelongsTo (space : String) (schema : Schema) : Prop :=
  schema.targetSpace = space ∧ schema.IsLocal

/-- What is added to declarations of a kind is of this kind, too. -/
theorem forall_mem_concat {α : Type} {P : α → Prop} {declarations : List α}
    (h : ∀ d ∈ declarations, P d) {added : α} (ha : P added) :
    ∀ d ∈ declarations ++ [added], P d :=
  List.forall_mem_append.2 ⟨h, List.forall_mem_singleton.2 ha⟩

theorem BelongsTo.addType {space : String} {schema : Schema} (h : BelongsTo space schema)
    {type : NamedType} (ht : type.name.space = space) :
    BelongsTo space { schema with types := schema.types ++ [type] } :=
  ⟨h.1, forall_mem_concat h.2.types (ht.trans h.1.symm), h.2.groups, h.2.elements⟩

theorem BelongsTo.addGroup {space : String} {schema : Schema} (h : BelongsTo space schema)
    {group : NamedGroup} (hg : group.name.space = space) :
    BelongsTo space { schema with groups := schema.groups ++ [group] } :=
  ⟨h.1, h.2.types, forall_mem_concat h.2.groups (hg.trans h.1.symm), h.2.elements⟩

theorem BelongsTo.addElement {space : String} {schema : Schema} (h : BelongsTo space schema)
    {element : Element} (he : element.name.space = space) :
    BelongsTo space { schema with elements := schema.elements ++ [element] } :=
  ⟨h.1, h.2.types, h.2.groups, forall_mem_concat h.2.elements (he.trans h.1.symm)⟩

theorem gives_globalElement_space (setting : Setting) (name location : String) (c : Construct) :
    Gives (globalElement setting name location c) (·.name.space = setting.targetSpace) := by
  refine gives_bind_any fun _ => gives_bind_any fun _ => ?_
  unfold elementOf
  exact gives_ite (gives_bind_any fun _ => gives_pure rfl) (gives_pure rfl)

theorem gives_topLevel (setting : Setting) {schema : Schema}
    (h : BelongsTo setting.targetSpace schema) (c : Construct) :
    Gives (topLevel setting schema c) (BelongsTo setting.targetSpace) := by
  have same : ∀ {other : Schema}, other.targetSpace = schema.targetSpace →
      other.types = schema.types → other.groups = schema.groups →
      other.elements = schema.elements → BelongsTo setting.targetSpace other := by
    intro other hs ht hg he
    exact ⟨hs.trans h.1, fun t hm => hs ▸ h.2.types t (ht ▸ hm),
      fun g hm => hs ▸ h.2.groups g (hg ▸ hm), fun e hm => hs ▸ h.2.elements e (he ▸ hm)⟩
  unfold topLevel
  refine gives_ite (gives_pure (same rfl rfl rfl rfl)) ?_
  refine gives_ite (gives_pure (same rfl rfl rfl rfl)) ?_
  refine gives_ite (gives_bind_any fun _ => gives_pure (same rfl rfl rfl rfl)) ?_
  refine gives_ite (gives_bind_any fun _ => gives_bind_any fun _ =>
    gives_pure (h.addType rfl)) ?_
  refine gives_ite (gives_bind_any fun _ => gives_bind_any fun _ =>
    gives_pure (h.addType rfl)) ?_
  refine gives_ite (gives_bind_any fun _ => gives_bind (gives_globalElement_space setting _ _ c)
    fun _ he => gives_pure (h.addElement he)) ?_
  refine gives_ite (gives_bind_any fun name => ?_) ?_
  · dsimp only
    split
    · exact gives_malformed
    · exact gives_bind_any fun _ => gives_pure (h.addGroup rfl)
  refine gives_ite (gives_bind_any fun _ => gives_bind_any fun _ =>
    gives_pure (same rfl rfl rfl rfl)) ?_
  refine gives_ite (gives_bind_any fun _ => gives_bind_any fun _ =>
    gives_pure (same rfl rfl rfl rfl)) ?_
  exact gives_bind_any fun _ => gives_pure (same rfl rfl rfl rfl)

theorem gives_topLevels (setting : Setting) : ∀ (constructs : List Construct) {schema : Schema},
    BelongsTo setting.targetSpace schema →
      Gives (topLevels setting schema constructs) (BelongsTo setting.targetSpace)
  | [], _, h => gives_pure h
  | c :: rest, _, h =>
    gives_bind (gives_topLevel setting h c) fun _ hs => gives_topLevels setting rest hs

/-- The schema was read from some text. -/
def IsRead (schema : Schema) : Prop :=
  ∃ filename text diagnostics, ofText filename text = .ok (schema, diagnostics)

/-- What holds of whatever is read from the constructs of a document holds of a schema that was
read. -/
theorem IsRead.of_topLevels {schema : Schema} {P : Schema → Prop} (h : schema.IsRead)
    (hP : ∀ setting root constructs, Gives (topLevels setting (ofRoot setting root) constructs) P) :
    P schema := by
  obtain ⟨filename, text, diagnostics, hread⟩ := h
  unfold ofText at hread
  split at hread
  · exact nomatch hread
  · split at hread
    · dsimp only at hread
      split at hread
      · next result hr =>
          obtain rfl := Except.ok.inj hread
          exact hP _ _ _ _ _ _ hr
      · exact nomatch hread
    · exact nomatch hread

/-- A schema that was read is local. -/
theorem IsRead.isLocal {schema : Schema} (h : schema.IsRead) : schema.IsLocal := by
  refine h.of_topLevels fun setting root constructs => ?_
  have nothing : BelongsTo setting.targetSpace (ofRoot setting root) :=
    ⟨rfl, List.forall_mem_nil _, List.forall_mem_nil _, List.forall_mem_nil _⟩
  exact fun notes a rest ha => (gives_topLevels setting constructs nothing notes a rest ha).2

end Schema

end Crosswalk
