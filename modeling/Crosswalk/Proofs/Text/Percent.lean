import Crosswalk.Text.Encoding

/-!
# Percent-encoding is undone by decoding

An encoded text decodes to the text, whatever characters it has, as long as the percent sign itself
is not kept. Since a link is put together from encoded names and bare separators, the statement
about bytes leaves room for what follows. An encoded text has no character that would end it within
a link.
-/

namespace Crosswalk

namespace Percent

theorem hexDigit?_hexChar : ∀ n < 16, hexDigit? (hexChar n) = some n := by decide

theorem hexChar_ne_plus : ∀ n < 16, hexChar n ≠ '+' := by decide

theorem byte?_hexChar (b : UInt8) :
    byte? (hexChar (b.toNat / 16)) (hexChar (b.toNat % 16)) = some b := by
  have hb : b.toNat < 256 := b.toNat_lt
  have high : b.toNat / 16 < 16 := by omega
  have low : b.toNat % 16 < 16 := by omega
  have hsum : b.toNat / 16 * 16 + b.toNat % 16 = b.toNat := by omega
  simp only [byte?, if_neg (hexChar_ne_plus _ high), hexDigit?_hexChar _ high,
    hexDigit?_hexChar _ low, bind, Option.bind, pure, hsum, UInt8.ofNat_toNat]

theorem bytes?_cons_of_ne {c : Char} (h : c ≠ '%') (rest : List Char) :
    bytes? (c :: rest) = (bytes? rest).map (String.utf8EncodeChar c ++ ·) := by
  rw [bytes?.eq_def]
  simp [h]

theorem bytes?_escapeByte_append (b : UInt8) (rest : List Char) :
    bytes? (escapeByte b ++ rest) = (bytes? rest).map (b :: ·) := by
  simp only [escapeByte, List.cons_append, List.nil_append, bytes?, if_true, byte?_hexChar]
  cases bytes? rest <;> rfl

theorem bytes?_escapeBytes_append (bs : List UInt8) (rest : List Char) :
    bytes? (bs.flatMap escapeByte ++ rest) = (bytes? rest).map (bs ++ ·) := by
  induction bs with
  | nil => simp
  | cons b bs ih =>
      rw [List.flatMap_cons, List.append_assoc, bytes?_escapeByte_append, ih, Option.map_map]
      rfl

section

variable {keeps : Char → Bool} (hkeeps : keeps '%' = false)
include hkeeps

theorem bytes?_encodeChar_append (c : Char) (rest : List Char) :
    bytes? (encodeChar keeps c ++ rest) =
      (bytes? rest).map (String.utf8EncodeChar c ++ ·) := by
  unfold encodeChar
  split
  · next h =>
      refine bytes?_cons_of_ne ?_ rest
      rintro rfl
      simp [hkeeps, isUnreserved] at h
  · exact bytes?_escapeBytes_append _ rest

theorem bytes?_encode_append (cs rest : List Char) :
    bytes? (cs.flatMap (encodeChar keeps) ++ rest) =
      (bytes? rest).map (cs.flatMap String.utf8EncodeChar ++ ·) := by
  induction cs with
  | nil => simp
  | cons c cs ih =>
      rw [List.flatMap_cons, List.append_assoc, bytes?_encodeChar_append hkeeps, ih,
        Option.map_map, List.flatMap_cons]
      congr 1
      funext bytes
      simp

end

/-- A text whose bytes are read back is read back itself. -/
theorem decode?_eq_some {text : String} {cs : List Char}
    (h : bytes? text.toList = some (cs.flatMap String.utf8EncodeChar)) :
    decode? text = some (String.ofList cs) := by
  have hv : (cs.flatMap String.utf8EncodeChar).toByteArray.IsValidUTF8 := .intro cs rfl
  simp only [decode?, h, Option.bind_some, String.fromUTF8?, hv, dif_pos, Option.some.injEq]
  rw [← String.toByteArray_inj, String.toByteArray_ofList]
  rfl

/-- Decoding undoes encoding. -/
theorem decode?_encode {keeps : Char → Bool} (hkeeps : keeps '%' = false) (text : String) :
    decode? (encode keeps text) = some text := by
  have h := bytes?_encode_append hkeeps text.toList []
  rw [List.append_nil] at h
  have hbytes : bytes? (encode keeps text).toList =
      some (text.toList.flatMap String.utf8EncodeChar) := by simpa [encode, bytes?] using h
  simpa using decode?_eq_some hbytes

theorem encode_injective {keeps : Char → Bool} (hkeeps : keeps '%' = false) {a b : String}
    (h : encode keeps a = encode keeps b) : a = b := by
  have hdecoded := congrArg decode? h
  rwa [decode?_encode hkeeps, decode?_encode hkeeps, Option.some.injEq] at hdecoded

/-! ### The characters of an encoded text -/

theorem isUnreserved_hexChar : ∀ n < 16, isUnreserved (hexChar n) = true := by decide

/-- An encoded text consists of unreserved characters, of those of the text that are kept, and of
percent signs. -/
theorem of_mem_encode {keeps : Char → Bool} {text : String} {c : Char}
    (h : c ∈ (encode keeps text).toList) :
    isUnreserved c = true ∨ (keeps c = true ∧ c ∈ text.toList) ∨ c = '%' := by
  simp only [encode, String.toList_ofList, List.mem_flatMap] at h
  obtain ⟨d, hmem, h⟩ := h
  unfold encodeChar at h
  split at h
  · next hd =>
      obtain rfl := List.mem_singleton.1 h
      exact (Bool.or_eq_true _ _ ▸ hd).imp_right fun hd => .inl ⟨hd, hmem⟩
  · obtain ⟨b, -, hb⟩ := List.mem_flatMap.1 h
    have hlt : b.toNat < 256 := b.toNat_lt
    simp only [escapeByte, List.mem_cons, List.not_mem_nil, or_false] at hb
    rcases hb with rfl | rfl | rfl
    · exact .inr (.inr rfl)
    · exact .inl (isUnreserved_hexChar _ (by omega))
    · exact .inl (isUnreserved_hexChar _ (by omega))

/-- What an encoded text has in it, the text has in it, unless it is a part of escapes. -/
theorem mem_of_mem_encode {keeps : Char → Bool} {text : String} {c : Char}
    (hc : isUnreserved c = false) (hne : c ≠ '%') (h : c ∈ (encode keeps text).toList) :
    keeps c = true ∧ c ∈ text.toList := by
  rcases of_mem_encode h with h | h | h
  · exact Bool.noConfusion (hc.symm.trans h)
  · exact h
  · exact absurd h hne

theorem not_mem_encode {keeps : Char → Bool} {c : Char} (hc : isUnreserved c = false)
    (hkeeps : keeps c = false) (hne : c ≠ '%') (text : String) :
    c ∉ (encode keeps text).toList :=
  fun h => Bool.noConfusion (hkeeps.symm.trans (mem_of_mem_encode hc hne h).1)

theorem hash_not_mem_encode {keeps : Char → Bool} (hkeeps : keeps '#' = false) (text : String) :
    '#' ∉ (encode keeps text).toList :=
  not_mem_encode (by decide) hkeeps (by decide) text

/-- What an encoded text begins with, the text begins with, unless it is an escape. -/
theorem head?_of_encode {keeps : Char → Bool} {text : String} {c : Char} (hne : c ≠ '%')
    (h : (encode keeps text).toList.head? = some c) : text.toList.head? = some c := by
  rw [encode, String.toList_ofList] at h
  cases hl : text.toList with
  | nil =>
      rw [hl] at h
      exact nomatch h
  | cons d rest =>
      rw [hl, List.flatMap_cons] at h
      unfold encodeChar at h
      split at h
      · exact h
      · obtain ⟨b, bs, hb⟩ :=
          List.exists_cons_of_ne_nil (String.utf8EncodeChar_ne_nil (c := d))
        rw [hb, List.flatMap_cons, escapeByte] at h
        exact absurd (Option.some.inj h).symm hne

theorem encode_eq_empty {keeps : Char → Bool} {text : String} (h : encode keeps text = "") :
    text = "" := by
  have hl : text.toList.flatMap (encodeChar keeps) = [] := by
    simpa [encode] using congrArg String.toList h
  rw [List.flatMap_eq_nil_iff] at hl
  rw [← String.toList_inj, String.toList_empty, List.eq_nil_iff_forall_not_mem]
  intro c hc
  have hn := hl c hc
  unfold encodeChar at hn
  split at hn
  · simp at hn
  · rw [List.flatMap_eq_nil_iff] at hn
    obtain ⟨b, hb⟩ := List.exists_mem_of_ne_nil _ (String.utf8EncodeChar_ne_nil (c := c))
    simpa [escapeByte] using hn b hb

end Percent

end Crosswalk
