import Crosswalk.Proofs.Pattern.Syntax

/-!
# How written classes are read

A class is cut into parts first, and the dashes in it are judged when all parts are there. What the
translation writes for a class of a pattern is read up to its closing bracket, as the class that the
syntax tree says (`charClass?_group`). The members are judged one by one: none of them leaves a dash
in front of the next that could make a range with it (`Make`).
-/

namespace Crosswalk

namespace Pattern

open Regex

/-- The parts of a class that are read from an escape in it. -/
def Escape.parts? (e : Escape) : Option (List ClassPart) :=
  match e.kind with
  | .nameStart => some [.char '_', .char ':', .char 'A', .dash, .char 'Z', .char 'a', .dash,
      .char 'z']
  | .name => some [.char '-', .char '.', .char '_', .char ':', .char 'A', .dash, .char 'Z',
      .char 'a', .dash, .char 'z', .char '0', .dash, .char '9']
  | _ => e.members?.map fun members => [.named members]

/-- The parts that are read from a member of a class. -/
def Member.parts? : Member → Option (List ClassPart)
  | single c => some [.char c.value]
  | range first last _ => some [.char first.value, .dash, .char last.value]
  | escape e => e.parts?

/-- The text stands for the parts, whatever comes behind it in the class. -/
def ReadsParts (w : List Char) (parts? : Option (List ClassPart)) : Prop :=
  ∀ rest, classParts? (w ++ rest) =
    parts?.bind fun parts => (classParts? rest).map fun read => (parts ++ read.1, read.2)

namespace ReadsParts

variable {w v : List Char} {p q : Option (List ClassPart)}

theorem nil : ReadsParts [] (some []) := fun rest => by simp

theorem append (h : ReadsParts w p) (h' : ReadsParts v q) :
    ReadsParts (w ++ v) (joined? p q) := fun rest => by
  rw [List.append_assoc, h, h']
  cases p <;> cases q <;> simp [Function.comp_def]

end ReadsParts

theorem classParts?_cons {c : Char} (h : c ≠ '\\' ∧ c ≠ '[' ∧ c ≠ ']') (rest : List Char) :
    classParts? (c :: rest) = (classParts? rest).map fun read =>
      ((if c = '-' then .dash else .char c) :: read.1, read.2) := by
  rw [classParts?]
  · cases classParts? rest <;> rfl
  · simp [h]
  · simp [h]
  · simp [h]

theorem classParts?_named {c : Char} {members : List ClassMember}
    (h : namedMembers? c = some members) (rest : List Char) : classParts? ('\\' :: c :: rest) =
      (classParts? rest).map fun read => (.named members :: read.1, read.2) := by
  rw [classParts?, h]
  cases classParts? rest <;> rfl

theorem classParts?_escaped {c d : Char} (h : namedMembers? c = none) (hd : escaped? c = some d)
    (rest : List Char) : classParts? ('\\' :: c :: rest) =
      (classParts? rest).map fun read => (.char d :: read.1, read.2) := by
  rw [classParts?, h, hd]
  cases classParts? rest <;> rfl

theorem classParts?_refused {c : Char} (h : namedMembers? c = none) (hd : escaped? c = none)
    (rest : List Char) : classParts? ('\\' :: c :: rest) = none := by
  rw [classParts?, h, hd]
  rfl

theorem named?_of_mem_marks {mark : Char} (h : mark ∈ marks) : namedMembers? mark = none := by
  have hmarks : marks.all fun c => (namedMembers? c).isNone := by decide
  exact Option.isNone_iff_eq_none.1 (List.all_eq_true.1 hmarks mark h)

theorem escaped?_of_mem_marks {special : List Char} {mark : Char} (h : mark ∈ marks) :
    escaped? mark = some (Single.escaped mark h : Single special).value := by
  unfold escaped? Single.value
  have hmarks : marks.all fun c => decide (c ≠ 'f' ∧ c ≠ 'v' ∧
      (c = 'n' ∨ c = 'r' ∨ c = 't' ∨ isMark c = true)) := by decide
  have := of_decide_eq_true (List.all_eq_true.1 hmarks mark h)
  split_ifs <;> simp_all

theorem readsParts_single (c : Single classSpecial) :
    ReadsParts c.text (some [.char c.value]) := fun rest => by
  cases c with
  | plain c h =>
      have hc : c ≠ '\\' ∧ c ≠ '-' ∧ c ≠ '[' ∧ c ≠ ']' := by simpa [classSpecial] using h
      have hread := classParts?_cons ⟨hc.1, hc.2.2⟩ rest
      rw [if_neg hc.2.1] at hread
      exact hread
  | escaped mark h =>
      exact classParts?_escaped (named?_of_mem_marks h) (escaped?_of_mem_marks h) rest

theorem readsParts_dash (stands : Bool) :
    ReadsParts (CharGroup.dash stands) (some (if stands then [.dash] else [])) := by
  cases stands with
  | false => exact ReadsParts.nil
  | true => exact classParts?_cons (by decide)

/-- The name of a property is written as it is. -/
theorem Escape.eq_text_of_property (inClass : Bool) {negated : Bool} {name w : List Char}
    {closed : '\x7d' ∉ name}
    (h : (Escape.mk (.property name closed) negated).written? inClass = some w) :
    w = (Escape.mk (.property name closed) negated).text := by
  unfold Escape.written? propertyText at h
  dsimp only at h
  split_ifs at h
  · cases h
  · exact (Option.some.inj h).symm

theorem readsParts_escape {e : Escape} {w : List Char} (h : e.written? true = some w) :
    ReadsParts w e.parts? := fun rest => by
  obtain ⟨kind, negated⟩ := e
  cases kind with
  | nameStart =>
      cases negated <;> cases h
      simp [Escape.parts?, nameStart, classParts?_cons, Function.comp_def]
  | name =>
      cases negated <;> cases h
      have hdash : ∀ rest, classParts? ('\\' :: '-' :: rest) = _ := classParts?_escaped rfl rfl
      simp [Escape.parts?, nameChar, classParts?_cons, hdash, Function.comp_def]
  | property name closed =>
      rw [Escape.eq_text_of_property true h]
      cases negated <;> exact classParts?_refused rfl rfl _
  | _ =>
      cases h
      cases negated <;> exact classParts?_named rfl rest

theorem readsParts_member {m : Member} {w : List Char} (h : m.written? = some w) :
    ReadsParts w m.parts? := by
  cases m with
  | single c =>
      cases h
      exact readsParts_single c
  | range first last ordered =>
      cases h
      exact (readsParts_single first).append
        ((readsParts_dash true).append (readsParts_single last))
  | escape e => exact readsParts_escape h

theorem readsParts_row {ms : List Member} {w : List Char}
    (h : CharGroup.row? Member.written? ms = some w) :
    ReadsParts w (CharGroup.row? Member.parts? ms) := by
  induction ms generalizing w with
  | nil =>
      cases h
      exact ReadsParts.nil
  | cons m rest ih =>
      obtain ⟨u, v, hu, hv, rfl⟩ := (joined?_eq_some_iff _ _ _).1 h
      exact (readsParts_member hu).append (ih hv)

/-- No range goes on behind what stands in front of the parts. -/
def EndsRange (parts : List ClassPart) : Prop := ∀ c rest, parts ≠ .dash :: .char c :: rest

/-- The parts make the members, whatever comes behind them and is not a range that goes on. -/
structure Make (parts : List ClassPart) (members : List ClassMember) : Prop where
  members : ∀ rest, EndsRange rest →
    classMembers? (parts ++ rest) = (classMembers? rest).map (members ++ ·)
  endsRange : ∀ rest, EndsRange rest → EndsRange (parts ++ rest)

namespace Make

theorem nil : Make [] [] := ⟨fun rest _ => by simp, fun _ h => h⟩

theorem append {p q : List ClassPart} {ms ns : List ClassMember} (h : Make p ms) (h' : Make q ns) :
    Make (p ++ q) (ms ++ ns) where
  members rest hrest := by
    rw [List.append_assoc, h.members _ (h'.endsRange rest hrest), h'.members rest hrest]
    simp [Function.comp_def]
  endsRange rest hrest := by
    rw [List.append_assoc]
    exact h.endsRange _ (h'.endsRange rest hrest)

theorem char (c : Char) : Make [.char c] [.range c c] where
  members rest hrest := by
    rw [List.singleton_append, classMembers?]
    · rfl
    · exact fun last more h => hrest last more h
  endsRange rest _ := by simp [EndsRange]

theorem range {first last : Char} (h : first ≤ last) :
    Make [.char first, .dash, .char last] [.range first last] where
  members rest _ := by simp [classMembers?, h]
  endsRange rest _ := by simp [EndsRange]

theorem named (members : List ClassMember) : Make [.named members] members where
  members rest _ := by simp [classMembers?]
  endsRange rest _ := by simp [EndsRange]

theorem escape (e : Escape) : Option.Rel Make e.parts? e.members? := by
  obtain ⟨kind, negated⟩ := e
  cases kind with
  | nameStart =>
      exact .some ((char '_').append ((char ':').append
        ((range (by decide : 'A' ≤ 'Z')).append (range (by decide : 'a' ≤ 'z')))))
  | name =>
      exact .some ((char '-').append ((char '.').append ((char '_').append ((char ':').append
        ((range (by decide : 'A' ≤ 'Z')).append ((range (by decide : 'a' ≤ 'z')).append
          (range (by decide : '0' ≤ '9'))))))))
  | property name closed => exact .none
  | _ => cases negated <;> exact .some (named _)

theorem member (m : Member) : Option.Rel Make m.parts? m.members? := by
  cases m with
  | single c => exact .some (char c.value)
  | range first last ordered => exact .some (range ordered)
  | escape e => exact escape e

theorem joined {p q : Option (List ClassPart)} {ms ns : Option (List ClassMember)}
    (h : Option.Rel Make p ms) (h' : Option.Rel Make q ns) :
    Option.Rel Make (joined? p q) (joined? ms ns) := by
  cases h with
  | none => exact .none
  | some h =>
      cases h' with
      | none => exact .none
      | some h' => exact .some (h.append h')

theorem row (ms : List Member) : Option.Rel Make (CharGroup.row? Member.parts? ms)
    (CharGroup.row? Member.members? ms) := by
  induction ms with
  | nil => exact .some nil
  | cons m rest ih => exact joined (member m) ih

end Make

theorem classMembers?_dash (stands : Bool) (parts : List ClassPart) :
    classMembers? ((if stands then [.dash] else []) ++ parts) =
      (classMembers? parts).map (CharGroup.dashMember stands ++ ·) := by
  cases stands with
  | false => simp [CharGroup.dashMember]
  | true => rfl

/-- A text for a member begins with no bracket, and with a caret only if the member does. -/
theorem Member.head_of_written? {m : Member} {w : List Char} (h : m.written? = some w) :
    ∃ c rest, w = c :: rest ∧ c ≠ ']' ∧ (c = '^' → m.text.head? = some '^') := by
  have hsingle : ∀ s : Single classSpecial, ∀ more, ∃ c rest, s.text ++ more = c :: rest ∧
      c ≠ ']' ∧ (c = '^' → (s.text ++ more).head? = some '^') := by
    intro s more
    cases s with
    | plain c hc => exact ⟨c, more, rfl, by rintro rfl; exact hc (by decide), by rintro rfl; rfl⟩
    | escaped mark hm => exact ⟨'\\', mark :: more, rfl, by decide, by simp⟩
  cases m with
  | single s =>
      cases h
      simpa [Member.text] using hsingle s []
  | range first last ordered =>
      cases h
      exact hsingle first _
  | escape e =>
      suffices hhead : ∃ c rest, w = c :: rest ∧ c ≠ ']' ∧ c ≠ '^' by
        obtain ⟨c, rest, hw, hclosing, hcaret⟩ := hhead
        exact ⟨c, rest, hw, hclosing, fun hc => absurd hc hcaret⟩
      obtain ⟨kind, negated⟩ := e
      cases kind with
      | nameStart => cases negated <;> cases h; exact ⟨_, _, rfl, by decide, by decide⟩
      | name => cases negated <;> cases h; exact ⟨_, _, rfl, by decide, by decide⟩
      | property name closed =>
          exact ⟨_, _, Escape.eq_text_of_property true h, by decide, by decide⟩
      | _ => cases h; exact ⟨_, _, rfl, by decide, by decide⟩

theorem CharGroup.body_of_row? (g : CharGroup) {v : List Char}
    (h : row? Member.written? g.members = some v) (rest : List Char) :
    ∃ c more, dash g.leading ++ (v ++ rest) = c :: more ∧ c ≠ ']' ∧
      (g.negated = false → c ≠ '^') := by
  cases hleading : g.leading with
  | true => exact ⟨'-', v ++ rest, rfl, by decide, fun _ => by decide⟩
  | false =>
      obtain ⟨m, ms, hms⟩ :=
        List.exists_cons_of_ne_nil (g.nonempty.resolve_left (by simp [hleading]))
      rw [hms] at h
      obtain ⟨u, v, hu, -, rfl⟩ := (joined?_eq_some_iff _ _ _).1 h
      obtain ⟨c, more, rfl, hclosing, hcaret⟩ := Member.head_of_written? hu
      refine ⟨c, more ++ (v ++ rest), by simp [dash], hclosing, fun hnegated hc => ?_⟩
      have hfirst := g.first hnegated hleading
      rw [hms, List.flatMap_cons, List.head?_append, hcaret hc] at hfirst
      exact hfirst rfl

theorem classParts?_body (g : CharGroup) {v : List Char}
    (h : CharGroup.row? Member.written? g.members = some v) (rest : List Char) :
    classParts? (CharGroup.dash g.leading ++ (v ++ (CharGroup.dash g.trailing ++ ']' :: rest))) =
      (CharGroup.row? Member.parts? g.members).map fun parts =>
        ((if g.leading then [.dash] else []) ++
          (parts ++ if g.trailing then [.dash] else []), rest) := by
  have hclosing : classParts? (']' :: rest) = some ([], rest) := rfl
  rw [readsParts_dash, readsParts_row h, readsParts_dash, hclosing]
  cases CharGroup.row? Member.parts? g.members <;> simp

theorem classBody?_of_ne {c : Char} (h : c ≠ ']') (negated : Bool) (rest : List Char) :
    classBody? negated (c :: rest) = (classParts? (c :: rest)).bind fun read =>
      (classMembers? read.1).map fun members => (⟨members, negated⟩, read.2) := by
  unfold classBody?
  split
  · next heq => exact absurd (List.cons.inj heq).1 h
  · cases classParts? (c :: rest) with
    | none => rfl
    | some read => cases hm : classMembers? read.1 <;> simp [hm]

/-- A class is read as what the syntax tree says, up to its closing bracket. -/
theorem charClass?_group {g : CharGroup} {w : List Char} (h : g.written? = some w)
    (rest : List Char) : charClass? (w ++ ']' :: rest) = g.class?.map (·, rest) := by
  obtain ⟨v, hv, rfl⟩ := Option.map_eq_some_iff.1 h
  obtain ⟨c, more, hbody, hclosing, hcaret⟩ :=
    g.body_of_row? hv (CharGroup.dash g.trailing ++ ']' :: rest)
  have hread : classBody? g.negated (c :: more) = g.class?.map (·, rest) := by
    rw [classBody?_of_ne hclosing, ← hbody, classParts?_body g hv]
    have hrow := Make.row g.members
    unfold CharGroup.class?
    generalize CharGroup.row? Member.parts? g.members = parts at hrow ⊢
    generalize CharGroup.row? Member.members? g.members = members at hrow ⊢
    cases hrow with
    | none => rfl
    | some hmake =>
        have hends : ∀ stands, EndsRange (if stands = true then [.dash] else []) := by
          simp [EndsRange]
        have hlast := classMembers?_dash g.trailing []
        rw [List.append_nil] at hlast
        simp [classMembers?_dash, hmake.members _ (hends g.trailing), hlast, classMembers?]
  simp only [List.append_assoc, hbody]
  unfold CharGroup.sign
  cases hnegated : g.negated with
  | true =>
      rw [hnegated] at hread
      exact hread
  | false =>
      rw [hnegated] at hread
      unfold charClass?
      split
      · next heq => exact absurd (List.cons.inj heq).1 (hcaret hnegated)
      · exact hread

end Pattern

end Crosswalk
