import Mathlib
import SnippetGate.Bytes.Utf8

/-!
# Texts read from bytes

Bytes that are read strictly are the bytes of the text that is read. The first byte of a character
is never one of its later bytes, so a character is known by where its bytes begin, and by where they
end.
-/

namespace SnippetGate.Bytes

variable {b : UInt8} {bs p q r : Bytes} {c x y : Char} {n : Nat} {t u : Text}

/-! ### Reading one character -/

/-- Bytes that lie in the given ranges, one in each. -/
def InRanges (q : Bytes) (rs : List (UInt8 × UInt8)) : Prop :=
  List.Forall₂ (fun b r => r.1.toNat ≤ b.toNat ∧ b.toNat ≤ r.2.toNat) q rs

theorem following_spec {rs : List (UInt8 × UInt8)} (h : ¬ (following rs bs).length < rs.length) :
    InRanges (following rs bs) rs ∧ following rs bs <+: bs := by
  induction rs generalizing bs with
  | nil => exact ⟨.nil, List.nil_prefix⟩
  | cons range rs ih =>
    cases bs with
    | nil => simp [following] at h
    | cons b bs =>
      rw [following] at h ⊢
      split at h
      · next hb =>
        rw [if_pos hb]
        simp only [Bool.and_eq_true, decide_eq_true_eq, UInt8.le_iff_toNat_le] at hb
        have hlen : ¬ (following rs bs).length < rs.length := by simpa using h
        obtain ⟨hall, hpre⟩ := ih hlen
        exact ⟨.cons hb hall, List.prefix_cons_inj b |>.mpr hpre⟩
      · simp at h

/-- A code point that is read is that of a character. -/
theorem toNat_val_ofNat (h : n < 0xD800 ∨ 0xDFFF < n ∧ n < 0x110000) :
    (Char.ofNat n).val.toNat = n := by
  have hv : n.isValidChar := h
  rw [Char.ofNat, dif_pos hv]
  exact Char.toNat_ofNatAux hv

/-- The byte of a small number. -/
theorem ofNat_eq_of_toNat (h : n = b.toNat) : UInt8.ofNat n = b := by
  rw [h, UInt8.ofNat_toNat]

theorem encode_one (hb : b.toNat < 0x80) : String.utf8EncodeChar (Char.ofNat b.toNat) = [b] := by
  have hv := toNat_val_ofNat (n := b.toNat) (.inl (by omega))
  unfold String.utf8EncodeChar
  simp only [hv]
  rw [if_pos (by omega), UInt8.ofNat_toNat]

theorem encode_two {b₁ : UInt8} (hb : 0xC2 ≤ b.toNat ∧ b.toNat ≤ 0xDF)
    (h₁ : 0x80 ≤ b₁.toNat ∧ b₁.toNat ≤ 0xBF)
    (hn : n = 64 * (b.toNat - 0xC0) + (b₁.toNat - 0x80)) :
    String.utf8EncodeChar (Char.ofNat n) = [b, b₁] := by
  have hv := toNat_val_ofNat (n := n) (.inl (by omega))
  unfold String.utf8EncodeChar
  simp only [hv]
  rw [if_neg (by omega), if_pos (by omega), ofNat_eq_of_toNat (b := b) (by omega),
    ofNat_eq_of_toNat (b := b₁) (by omega)]

theorem encode_three {b₁ b₂ : UInt8} (hb : 0xE0 ≤ b.toNat ∧ b.toNat ≤ 0xEF)
    (h₁ : 0x80 ≤ b₁.toNat ∧ b₁.toNat ≤ 0xBF) (h₂ : 0x80 ≤ b₂.toNat ∧ b₂.toNat ≤ 0xBF)
    (hlow : b.toNat = 0xE0 → 0xA0 ≤ b₁.toNat) (hgap : b.toNat = 0xED → b₁.toNat ≤ 0x9F)
    (hn : n = 64 * (64 * (b.toNat - 0xE0) + (b₁.toNat - 0x80)) + (b₂.toNat - 0x80)) :
    String.utf8EncodeChar (Char.ofNat n) = [b, b₁, b₂] := by
  have hv := toNat_val_ofNat (n := n) (by omega)
  unfold String.utf8EncodeChar
  simp only [hv]
  rw [if_neg (by omega), if_neg (by omega), if_pos (by omega),
    ofNat_eq_of_toNat (b := b) (by omega), ofNat_eq_of_toNat (b := b₁) (by omega),
    ofNat_eq_of_toNat (b := b₂) (by omega)]

theorem encode_four {b₁ b₂ b₃ : UInt8} (hb : 0xF0 ≤ b.toNat ∧ b.toNat ≤ 0xF4)
    (h₁ : 0x80 ≤ b₁.toNat ∧ b₁.toNat ≤ 0xBF) (h₂ : 0x80 ≤ b₂.toNat ∧ b₂.toNat ≤ 0xBF)
    (h₃ : 0x80 ≤ b₃.toNat ∧ b₃.toNat ≤ 0xBF) (hlow : b.toNat = 0xF0 → 0x90 ≤ b₁.toNat)
    (hhigh : b.toNat = 0xF4 → b₁.toNat ≤ 0x8F)
    (hn : n = 64 * (64 * (64 * (b.toNat - 0xF0) + (b₁.toNat - 0x80)) + (b₂.toNat - 0x80)) +
      (b₃.toNat - 0x80)) :
    String.utf8EncodeChar (Char.ofNat n) = [b, b₁, b₂, b₃] := by
  have hv := toNat_val_ofNat (n := n) (by omega)
  unfold String.utf8EncodeChar
  simp only [hv]
  rw [if_neg (by omega), if_neg (by omega), if_neg (by omega),
    ofNat_eq_of_toNat (b := b) (by omega), ofNat_eq_of_toNat (b := b₁) (by omega),
    ofNat_eq_of_toNat (b := b₂) (by omega), ofNat_eq_of_toNat (b := b₃) (by omega)]

theorem inRanges_cons {r : UInt8 × UInt8} {rs : List (UInt8 × UInt8)} :
    InRanges q (r :: rs) ↔
      ∃ b p, (r.1.toNat ≤ b.toNat ∧ b.toNat ≤ r.2.toNat) ∧ InRanges p rs ∧ q = b :: p :=
  List.forall₂_cons_right_iff

theorem inRanges_nil : InRanges q [] ↔ q = [] := List.forall₂_nil_right_iff

/-- The first byte of a character of several bytes, and what its later bytes make of it, are the
bytes of that character. -/
theorem encode_of_inRanges (hne : followers b ≠ []) (hq : InRanges q (followers b)) :
    String.utf8EncodeChar
      (Char.ofNat (q.foldl (fun n x => 64 * n + (x.toNat - 0x80)) (leadBits b))) = b :: q := by
  have lead : leadBits b = if b.toNat < 0xE0 then b.toNat - 0xC0
      else if b.toNat < 0xF0 then b.toNat - 0xE0 else b.toNat - 0xF0 := by
    simp only [leadBits, UInt8.lt_iff_toNat_lt]
    rfl
  have two (h : 0xC2 ≤ b.toNat ∧ b.toNat ≤ 0xDF) (hq : InRanges q [(0x80, 0xBF)]) :
      String.utf8EncodeChar
        (Char.ofNat (q.foldl (fun n x => 64 * n + (x.toNat - 0x80)) (leadBits b))) = b :: q := by
    simp only [inRanges_cons, inRanges_nil] at hq
    obtain ⟨b₁, _, h₁, rfl, rfl⟩ := hq
    rw [lead, if_pos (by omega)]
    exact encode_two h h₁ rfl
  have three {low high : UInt8} (h : 0xE0 ≤ b.toNat ∧ b.toNat ≤ 0xEF) (hlow : 0x80 ≤ low.toNat)
      (hhigh : high.toNat ≤ 0xBF) (hl : b.toNat = 0xE0 → 0xA0 ≤ low.toNat)
      (hh : b.toNat = 0xED → high.toNat ≤ 0x9F) (hq : InRanges q [(low, high), (0x80, 0xBF)]) :
      String.utf8EncodeChar
        (Char.ofNat (q.foldl (fun n x => 64 * n + (x.toNat - 0x80)) (leadBits b))) = b :: q := by
    simp only [inRanges_cons, inRanges_nil] at hq
    obtain ⟨b₁, _, h₁, ⟨b₂, _, h₂, rfl, rfl⟩, rfl⟩ := hq
    rw [lead, if_neg (by omega), if_pos (by omega)]
    exact encode_three h ⟨hlow.trans h₁.1, h₁.2.trans hhigh⟩ h₂ (fun he => (hl he).trans h₁.1)
      (fun he => h₁.2.trans (hh he)) rfl
  have four {low high : UInt8} (h : 0xF0 ≤ b.toNat ∧ b.toNat ≤ 0xF4) (hlow : 0x80 ≤ low.toNat)
      (hhigh : high.toNat ≤ 0xBF) (hl : b.toNat = 0xF0 → 0x90 ≤ low.toNat)
      (hh : b.toNat = 0xF4 → high.toNat ≤ 0x8F)
      (hq : InRanges q [(low, high), (0x80, 0xBF), (0x80, 0xBF)]) :
      String.utf8EncodeChar
        (Char.ofNat (q.foldl (fun n x => 64 * n + (x.toNat - 0x80)) (leadBits b))) = b :: q := by
    simp only [inRanges_cons, inRanges_nil] at hq
    obtain ⟨b₁, _, h₁, ⟨b₂, _, h₂, ⟨b₃, _, h₃, rfl, rfl⟩, rfl⟩, rfl⟩ := hq
    rw [lead, if_neg (by omega), if_neg (by omega)]
    exact encode_four h ⟨hlow.trans h₁.1, h₁.2.trans hhigh⟩ h₂ h₃ (fun he => (hl he).trans h₁.1)
      (fun he => h₁.2.trans (hh he)) rfl
  simp only [followers, Bool.and_eq_true, decide_eq_true_eq, beq_iff_eq, UInt8.le_iff_toNat_le,
    ← UInt8.toNat_inj, UInt8.reduceToNat] at hq hne
  split at hq
  · next h => exact two h hq
  split at hq
  · next h => exact three (by omega) (by decide) (by decide) (fun _ => by decide) (by omega) hq
  split at hq
  · next h => exact three (by omega) (by decide) (by decide) (by omega) (fun _ => by decide) hq
  split at hq
  · next h => exact three (by omega) (by decide) (by decide) (by omega) (by omega) hq
  split at hq
  · next h => exact four (by omega) (by decide) (by decide) (fun _ => by decide) (by omega) hq
  split at hq
  · next h => exact four (by omega) (by decide) (by decide) (by omega) (by omega) hq
  split at hq
  · next h => exact four (by omega) (by decide) (by decide) (by omega) (fun _ => by decide) hq
  · simp_all

/-- The bytes that a character is read from are its own. -/
theorem character_spec (h : character b bs = (some c, n)) :
    ∃ q, q <+: bs ∧ q.length = n ∧ String.utf8EncodeChar c = b :: q := by
  unfold character at h
  split at h
  · next hb =>
    obtain ⟨rfl, rfl⟩ : Char.ofNat b.toNat = c ∧ 0 = n := by simpa using h
    exact ⟨[], List.nil_prefix, rfl, encode_one hb⟩
  simp only at h
  split at h
  · simp at h
  next hok =>
  simp only [Bool.or_eq_true, not_or, decide_eq_true_eq, List.isEmpty_iff] at hok
  obtain ⟨hne, hlen⟩ := hok
  obtain ⟨rfl, hn⟩ := by simpa using h
  obtain ⟨hall, hpre⟩ := following_spec hlen
  exact ⟨following (followers b) bs, hpre, hn, encode_of_inRanges hne hall⟩

/-! ### Reading a text -/

theorem charactersFrom_skip (n : Nat) (bs : Bytes) :
    charactersFrom n bs = charactersFrom 0 (bs.drop n) := by
  induction n generalizing bs with
  | zero => rfl
  | succ n ih =>
    cases bs with
    | nil => simp [charactersFrom]
    | cons b bs => exact ih bs

/-- Bytes that are read strictly are those of the text. -/
theorem ofText_of_toText? (h : toText? bs = some u) : ofText u = bs := by
  induction hl : bs.length using Nat.strong_induction_on generalizing bs u with
  | _ l ih =>
    cases bs with
    | nil =>
      obtain rfl : [] = u := by simpa [toText?, charactersFrom] using h
      rfl
    | cons b bs =>
      rcases hc : character b bs with ⟨c?, n⟩
      rw [toText?, charactersFrom, hc] at h
      simp only [List.mapM_cons, charactersFrom_skip n] at h
      obtain ⟨c, rfl, v, hv, rfl⟩ : ∃ c, c? = some c ∧ ∃ v,
          (charactersFrom 0 (bs.drop n)).mapM id = some v ∧ c :: v = u := by
        simpa [Option.bind_eq_some_iff] using h
      obtain ⟨q, ⟨r, rfl⟩, rfl, henc⟩ := character_spec hc
      rw [List.drop_left] at hv
      have hr : ofText v = r := by
        refine ih r.length ?_ hv rfl
        rw [← hl, List.length_cons, List.length_append]
        omega
      rw [ofText, List.flatMap_cons, henc, ← hr]
      rfl

/-! ### Where characters begin and end -/

/-- No byte of a character but its first can begin a character. -/
theorem eq_nil_of_encode_eq (h : String.utf8EncodeChar c = p ++ b :: q)
    (hb : b.IsUTF8FirstByte) : p = [] := by
  have hlt : p.length < (String.utf8EncodeChar c).length := by
    rw [h, List.length_append, List.length_cons]
    omega
  have hget : (String.utf8EncodeChar c)[p.length] = b := by simp [h]
  exact List.length_eq_zero_iff.mp
    (UInt8.isUTF8FirstByte_getElem_utf8EncodeChar.mp (hget.symm ▸ hb))

theorem exists_encode_eq (c : Char) :
    ∃ b q, String.utf8EncodeChar c = b :: q ∧ b.IsUTF8FirstByte := by
  obtain ⟨b, q, he⟩ := List.exists_cons_of_ne_nil (String.utf8EncodeChar_ne_nil (c := c))
  refine ⟨b, q, he, ?_⟩
  have := UInt8.isUTF8FirstByte_getElem_zero_utf8EncodeChar (c := c)
  simpa [he] using this

/-- Bytes begin with those of one character at most. -/
theorem eq_of_begins_encode (hx : String.utf8EncodeChar x <+: bs)
    (hy : String.utf8EncodeChar y <+: bs) : x = y := by
  obtain ⟨r, rfl⟩ := hx
  obtain ⟨s, hs⟩ := hy
  have hread (z : Char) (q : Bytes) :
      (String.utf8EncodeChar z ++ q).toByteArray.utf8DecodeChar? 0 = some z := by
    rw [List.toByteArray_append]
    exact ByteArray.utf8DecodeChar?_utf8EncodeChar_append
  have := hread y s
  rw [hs, hread x r] at this
  exact Option.some.inj this

/-- Bytes end with those of one character at most. -/
theorem eq_of_encode_suffix (hx : String.utf8EncodeChar x <:+ bs)
    (hy : String.utf8EncodeChar y <:+ bs) : x = y := by
  have shorter {x y : Char} (h : String.utf8EncodeChar x <:+ String.utf8EncodeChar y) : x = y := by
    obtain ⟨p, hp⟩ := h
    obtain ⟨b, q, hb, hfirst⟩ := exists_encode_eq x
    obtain rfl := eq_nil_of_encode_eq (hb ▸ hp.symm) hfirst
    exact eq_of_begins_encode (List.prefix_refl _) ⟨[], by rw [List.append_nil, ← hp]; rfl⟩
  rcases Nat.le_total (String.utf8EncodeChar x).length (String.utf8EncodeChar y).length with h | h
  · exact shorter (List.suffix_of_suffix_length_le hx hy h)
  · exact (shorter (List.suffix_of_suffix_length_le hy hx h)).symm

/-- Where a byte of ASCII stands in the bytes of a character, it is all of them. -/
theorem eq_of_encode_ascii (hx : String.utf8EncodeChar x = [b])
    (h : String.utf8EncodeChar y = p ++ b :: q) : x = y := by
  obtain ⟨b', q', hb, hfirst⟩ := exists_encode_eq x
  obtain ⟨rfl, -⟩ : b = b' ∧ q' = [] := by simpa [hx, eq_comm] using hb
  obtain rfl := eq_nil_of_encode_eq h hfirst
  have hpre : String.utf8EncodeChar x <+: String.utf8EncodeChar y := by
    rw [hx, h]
    exact ⟨q, rfl⟩
  exact eq_of_begins_encode hpre (List.prefix_refl _)

/-- The bytes begin with those of `c`, or with some of them and then `b`. -/
def Begins (c : Char) (b : UInt8) (bs : Bytes) : Prop :=
  String.utf8EncodeChar c <+: bs ∨ ∃ p, p <+: String.utf8EncodeChar c ∧ p ++ [b] <+: bs

/-- The bytes end with those of `c`, or with `b` and then some of them. -/
def Ends (c : Char) (b : UInt8) (bs : Bytes) : Prop :=
  String.utf8EncodeChar c <:+ bs ∨ ∃ q, q <:+ String.utf8EncodeChar c ∧ b :: q <:+ bs

theorem ofText_append (t u : Text) : ofText (t ++ u) = ofText t ++ ofText u :=
  List.flatMap_append

theorem begins_ofText (c : Char) (t : Text) (b : UInt8) : Begins c b (ofText (c :: t)) :=
  .inl ⟨ofText t, rfl⟩

theorem ends_ofText (t : Text) (c : Char) (b : UInt8) : Ends c b (ofText (t ++ [c])) :=
  .inl ⟨ofText t, by simp [ofText]⟩

/-- What a text begins with whose bytes begin with those of `c`, or some of them and then `x`. -/
theorem Begins.head? (hx : String.utf8EncodeChar x = [b]) (h : Begins c b (ofText u)) :
    u.head? = some c ∨ u.head? = some x := by
  cases u with
  | nil =>
    rcases h with h | ⟨p, -, h⟩
    · exact absurd (List.prefix_nil.mp h) String.utf8EncodeChar_ne_nil
    · simpa using List.prefix_nil.mp h
  | cons y u =>
    have hy : String.utf8EncodeChar y <+: ofText (y :: u) := ⟨ofText u, rfl⟩
    rcases h with h | ⟨p, hp, h⟩
    · exact .inl (congrArg some (eq_of_begins_encode hy h))
    · rcases Nat.lt_or_ge p.length (String.utf8EncodeChar y).length with hlen | hlen
      · obtain ⟨q, hq⟩ := List.prefix_of_prefix_length_le h hy (by simpa using hlen)
        rw [List.append_assoc] at hq
        exact .inr (congrArg some (eq_of_encode_ascii hx hq.symm).symm)
      · have hyp := List.prefix_of_prefix_length_le hy ((List.prefix_append p [b]).trans h) hlen
        exact .inl (congrArg some (eq_of_begins_encode (hyp.trans hp) (List.prefix_refl _)))

/-- What a text ends with whose bytes end with those of `c`, or with `x` and then some of them. -/
theorem Ends.getLast? (hx : String.utf8EncodeChar x = [b]) (h : Ends c b (ofText u)) :
    u.getLast? = some c ∨ u.getLast? = some x := by
  rcases List.eq_nil_or_concat u with rfl | ⟨u, y, rfl⟩
  · rcases h with h | ⟨q, -, h⟩
    · exact absurd (List.suffix_nil.mp h) String.utf8EncodeChar_ne_nil
    · simpa using List.suffix_nil.mp h
  · have hy : String.utf8EncodeChar y <:+ ofText (u ++ [y]) :=
      ⟨ofText u, by simp [ofText]⟩
    rw [List.concat_eq_append] at h ⊢
    rw [List.getLast?_concat]
    rcases h with h | ⟨q, hq, h⟩
    · exact .inl (congrArg some (eq_of_encode_suffix hy h))
    · rcases Nat.lt_or_ge q.length (String.utf8EncodeChar y).length with hlen | hlen
      · obtain ⟨p, hp⟩ := List.suffix_of_suffix_length_le h hy hlen
        exact .inr (congrArg some (eq_of_encode_ascii hx hp.symm).symm)
      · have hyq := List.suffix_of_suffix_length_le hy ((List.suffix_cons b q).trans h) hlen
        exact .inl (congrArg some (eq_of_encode_suffix (hyq.trans hq) (List.suffix_refl _)))

end SnippetGate.Bytes
