import Crosswalk.Link
import Crosswalk.Proofs.Options
import Crosswalk.Proofs.Text.Percent

/-!
# References to documents

A reference is read against the document that it stands in: it is a path, which may be empty, and
behind a `#` there may be a fragment. Both consist of ASCII characters that stand for themselves and
of escapes. A path is not mistaken for the scheme of a resource elsewhere, for no colon stands in
its first segment, nor for the name of a host, for it does not begin with two slashes. The names of
documents are such paths, and the links to their members such references.
-/

namespace Crosswalk

namespace Uri

/-- The characters that stand for themselves in a path. The second range are eight of the marks that
delimit parts of a segment, and the comma is the last of them. -/
def isPathChar (c : Char) : Bool :=
  Percent.isUnreserved c || c == '!' || c == '$' || ('&' ≤ c && c ≤ ',') || c == ';' || c == '=' ||
    c == ':' || c == '@' || c == '/'

/-- The characters that stand for themselves in a fragment. -/
def isFragmentChar (c : Char) : Bool := isPathChar c || c == '?'

/-- Characters of which some stand for themselves, and the others are bytes in two hexadecimal
digits. -/
inductive IsEncoded (stands : Char → Bool) : List Char → Prop
  | nil : IsEncoded stands []
  | char {c : Char} {rest : List Char} :
      stands c = true → IsEncoded stands rest → IsEncoded stands (c :: rest)
  | escape {a b : Char} {rest : List Char} :
      (Percent.hexDigit? a).isSome = true → (Percent.hexDigit? b).isSome = true →
        IsEncoded stands rest → IsEncoded stands ('%' :: a :: b :: rest)

/-- A path that is read against that of a document. -/
structure IsPath (path : List Char) : Prop where
  encoded : IsEncoded isPathChar path
  noScheme : ':' ∉ path.takeWhile (· != '/')
  noHost : ¬ ['/', '/'] <+: path

/-- A path, or a path and a fragment. -/
def IsReference (text : String) : Prop :=
  ∃ path fragment, IsPath path ∧ IsEncoded isFragmentChar fragment ∧
    (text.toList = path ∨ text.toList = path ++ '#' :: fragment)

/-! ### Encoded characters -/

variable {stands : Char → Bool}

theorem IsEncoded.append {first rest : List Char} (h : IsEncoded stands first)
    (hr : IsEncoded stands rest) : IsEncoded stands (first ++ rest) := by
  induction h with
  | nil => exact hr
  | char hc _ ih => exact .char hc ih
  | escape ha hb _ ih => exact .escape ha hb ih

theorem isEncoded_escapeBytes (bytes : List UInt8) :
    IsEncoded stands (bytes.flatMap Percent.escapeByte) := by
  induction bytes with
  | nil => exact .nil
  | cons b rest ih =>
      have hb : b.toNat < 256 := b.toNat_lt
      have digit : ∀ n < 16, (Percent.hexDigit? (Percent.hexChar n)).isSome = true := fun n hn => by
        rw [Percent.hexDigit?_hexChar n hn]
        rfl
      exact .escape (digit _ (by omega)) (digit _ (by omega)) ih

/-- What is encoded consists of the characters that are kept, and of escapes. -/
theorem isEncoded_encode {keeps : Char → Bool}
    (hu : ∀ c, Percent.isUnreserved c = true → stands c = true)
    (hk : ∀ c, keeps c = true → stands c = true) (text : String) :
    IsEncoded stands (Percent.encode keeps text).toList := by
  rw [Percent.encode, String.toList_ofList]
  induction text.toList with
  | nil => exact .nil
  | cons c rest ih =>
      rw [List.flatMap_cons]
      refine IsEncoded.append ?_ ih
      unfold Percent.encodeChar
      split
      · next h =>
          rw [Bool.or_eq_true] at h
          exact .char (h.elim (hu c) (hk c)) .nil
      · exact isEncoded_escapeBytes _

theorem isPathChar_of_isUnreserved {c : Char} (h : Percent.isUnreserved c = true) :
    isPathChar c = true := by
  simp [isPathChar, h]

theorem isFragmentChar_of_isUnreserved {c : Char} (h : Percent.isUnreserved c = true) :
    isFragmentChar c = true := by
  simp [isFragmentChar, isPathChar_of_isUnreserved h]

/-! ### Names of documents -/

/-- A path is encoded as a path, unless it begins with a slash. -/
theorem isPath_encodePath {text : String} (h : text.toList.head? ≠ some '/') :
    IsPath (Percent.encodePath text).toList where
  encoded := isEncoded_encode (fun _ => isPathChar_of_isUnreserved) (fun c hc => by
    obtain rfl : c = '/' := by simpa using hc
    decide) text
  noScheme hm := by
    have hcolon : ':' ∈ (Percent.encodePath text).toList := (List.takeWhile_sublist _).subset hm
    exact Percent.not_mem_encode (by decide) (by decide) (by decide) text hcolon
  noHost hp := by
    have hhead : (Percent.encodePath text).toList.head? = some '/' := by
      obtain ⟨rest, hr⟩ := hp
      rw [← hr]
      rfl
    exact h (Percent.head?_of_encode (by decide) hhead)

theorem isPath_nil : IsPath [] := ⟨.nil, by simp, by simp⟩

/-- The name of a document has no directory, and so no slash before its extension. -/
theorem head?_identifierOf (options : Options) (filename : String) :
    (options.identifierOf filename).toList.head? ≠ some '/' := by
  intro h
  rw [Options.toList_identifierOf] at h
  cases hs : Options.stem (Options.baseName filename.toList) with
  | nil =>
      rw [hs] at h
      exact absurd h (by simp)
  | cons c rest =>
      rw [hs] at h
      obtain rfl : c = '/' := by simpa using h
      have hslash := Options.isSeparator_of_mem_baseName
        (Options.mem_of_mem_stem (hs ▸ List.mem_cons_self))
      exact absurd hslash (by decide)

/-! ### Links -/

theorem isReference_of_isPath {text : String} (h : IsPath text.toList) : IsReference text :=
  ⟨_, [], h, .nil, .inl rfl⟩

theorem isEncoded_pointer (segment : String) :
    IsEncoded isFragmentChar (Pointer.encode segment).toList :=
  isEncoded_encode (fun _ => isFragmentChar_of_isUnreserved)
    (fun _ h => absurd h Bool.false_ne_true) _

/-- The link to a member of a document is a reference, whatever name the member has. -/
theorem isReference_text {document : Option String}
    (h : ∀ name ∈ document, name.toList.head? ≠ some '/') (sectionName name : String) :
    IsReference (Link.text document sectionName name) := by
  have path : IsPath ((document.map Percent.encodePath).getD "").toList := by
    cases document with
    | none => exact isPath_nil
    | some text => exact isPath_encodePath (h text rfl)
  have slash : IsEncoded isFragmentChar ['/'] := .char (by decide) .nil
  have fragment := ((slash.append (isEncoded_pointer sectionName)).append slash).append
    (isEncoded_pointer name)
  refine ⟨_, _, path, fragment, .inr ?_⟩
  simp [Link.text, String.toList_append]

/-! ### Characters -/

theorem toNat_lt_of_le {c d : Char} (h : c ≤ d) (hd : d.toNat < 128) : c.toNat < 128 :=
  Nat.lt_of_le_of_lt h hd

theorem toNat_lt_of_isPathChar {c : Char} (h : isPathChar c = true) : c.toNat < 128 := by
  simp only [isPathChar, Percent.isUnreserved, Bool.or_eq_true, Bool.and_eq_true,
    decide_eq_true_eq, beq_iff_eq, or_assoc] at h
  rcases h with h | h | h | rfl | rfl | rfl | rfl | rfl | rfl | h | rfl | rfl | rfl | rfl | rfl
  all_goals first
    | exact toNat_lt_of_le h.2 (by decide)
    | decide

theorem toNat_lt_of_hexDigit? {c : Char} (h : (Percent.hexDigit? c).isSome = true) :
    c.toNat < 128 := by
  unfold Percent.hexDigit? at h
  split at h
  · next hd => exact toNat_lt_of_le hd.2 (by decide)
  · split at h
    · next hd => exact toNat_lt_of_le hd.2 (by decide)
    · split at h
      · next hd => exact toNat_lt_of_le hd.2 (by decide)
      · exact nomatch h

theorem IsEncoded.isAscii (hs : ∀ c, stands c = true → c.toNat < 128) {cs : List Char}
    (h : IsEncoded stands cs) : ∀ c ∈ cs, c.toNat < 128 := by
  induction h with
  | nil => simp
  | char hc _ ih => exact List.forall_mem_cons.2 ⟨hs _ hc, ih⟩
  | escape ha hb _ ih =>
      exact List.forall_mem_cons.2 ⟨by decide, List.forall_mem_cons.2
        ⟨toNat_lt_of_hexDigit? ha, List.forall_mem_cons.2 ⟨toNat_lt_of_hexDigit? hb, ih⟩⟩⟩

/-- A reference has ASCII characters only. -/
theorem IsReference.isAscii {text : String} (h : IsReference text) :
    ∀ c ∈ text.toList, c.toNat < 128 := by
  obtain ⟨path, fragment, hp, hf, ht⟩ := h
  have hpath := hp.encoded.isAscii fun _ => toNat_lt_of_isPathChar
  have hfragment := hf.isAscii fun c hc => by
    rcases Bool.or_eq_true _ _ ▸ hc with hc | hc
    · exact toNat_lt_of_isPathChar hc
    · obtain rfl : c = '?' := by simpa using hc
      decide
  rcases ht with ht | ht
  · exact ht ▸ hpath
  · rw [ht]
    exact List.forall_mem_append.2 ⟨hpath, List.forall_mem_cons.2 ⟨by decide, hfragment⟩⟩

end Uri

end Crosswalk
