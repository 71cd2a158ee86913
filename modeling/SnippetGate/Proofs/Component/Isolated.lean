import SnippetGate.Proofs.Balance.Block
import SnippetGate.Proofs.Component.Truncated
import SnippetGate.Proofs.Denylist.Keeps
import SnippetGate.Proofs.Repair.Closure

/-!
# An isolated component holds no more denied code than its text

What stands before the component is left out up to its first word, with which no denied word
begins. The component ends with a closing bracket or a tag, behind which only closers and the mount
call are put.
-/

namespace SnippetGate

open Pattern ScanState

variable {P : Text → Text → Prop} {t u x y : Text}

/-! ### Wordless texts behind a shut end -/

theorem Wordless.append_left {g : Text} (hg : ∀ z ∈ g, isSignChar z = false) (h : Wordless y) :
    Wordless (g ++ y) := by
  rintro w hw ⟨a, b, he⟩
  have hparts : Parts g y := parts_of_getLast fun z hz =>
    hg z (List.mem_of_getLast? (Option.mem_def.mp hz))
  rcases hparts.cases hw (by rw [← he, List.append_assoc]) with ⟨b₁, rfl, -⟩ | ⟨a₂, rfl, -⟩
  · exact wordless_of_forall hg w hw ⟨a, b₁, List.append_assoc ..⟩
  · exact h w hw ⟨a₂, b, List.append_assoc ..⟩

/-- A text ends with a character that no word holds and that decides about every sequel. -/
def EndsShut (t : Text) : Prop :=
  ∃ l z, t = l ++ [z] ∧ Sequel.isDecisive z = true ∧ isSignChar z = false

theorem EndsShut.append (h : EndsShut u) (t : Text) : EndsShut (t ++ u) := by
  obtain ⟨l, z, rfl, hz⟩ := h
  exact ⟨t ++ l, z, (List.append_assoc ..).symm, hz⟩

/-- Behind a shut end a text without denied words brings no denied code about. -/
theorem DeniedFor.of_endsShut (hP : Forgets P) (h : EndsShut t) (hy : Wordless y)
    (hd : DeniedFor P (t ++ y)) : DeniedFor P (t ++ x) := by
  obtain ⟨l, z, rfl, hdecisive, hsign⟩ := h
  have hwordless : Wordless (z :: y) :=
    hy.append_left (g := [z]) (List.forall_mem_singleton.mpr hsign)
  rw [List.append_assoc, List.singleton_append] at hd ⊢
  exact hd.of_tail hP hdecisive hsign hwordless

/-! ### Closers behind a component that was cut off -/

theorem endsShut_of_closes {f : Frame} {closer : Text} (h : f.Closes closer) : EndsShut closer := by
  cases h with
  | tag name pos phase => exact ⟨'<' :: '/' :: name, '>', rfl, by decide, by decide⟩
  | bracket pos hp =>
    rcases hp with ⟨rfl, rfl⟩ | ⟨rfl, rfl⟩ | ⟨rfl, rfl⟩
    all_goals exact ⟨[], _, rfl, by decide, by decide⟩
  | statement pos => exact ⟨[')'], ';', rfl, by decide, by decide⟩

theorem EndsShut.closings {fs : List Frame} {e : Text} (h : EndsShut t) (he : Closings fs e) :
    EndsShut (t ++ e) := by
  induction he generalizing t with
  | nil => rwa [List.append_nil]
  | @cons f fs indent closer e _ hc _ ih =>
    have := ih ((endsShut_of_closes hc).append (t ++ '\n' :: indent))
    simpa using this

theorem Closers.of_closes {f : Frame} {closer : Text} (h : f.Closes closer) (hn : f.Named t) :
    Closers t closer := by
  cases h with
  | tag name pos phase => exact .tag (hn.namesTag rfl) .nil
  | bracket pos hp =>
    rcases hp with ⟨rfl, rfl⟩ | ⟨rfl, rfl⟩ | ⟨rfl, rfl⟩
    all_goals exact .filler (by decide) .nil
  | statement pos => exact .filler (by decide) (.filler (by decide) .nil)

theorem Closers.of_closings {fs : List Frame} {e : Text} (h : Closings fs e)
    (hn : ∀ f ∈ fs, f.Named t) : Closers t e := by
  induction h with
  | nil => exact .nil
  | cons hi hc _ ih =>
    obtain ⟨hf, hfs⟩ := List.forall_mem_cons.mp hn
    have hindent := (of_closes hc hf).fillers fun z hz => isFiller_of_isIndent (hi z hz)
    exact .filler (by decide) (hindent.append (ih hfs))

/-- Closers behind a shut end bring no denied code about. -/
theorem DeniedFor.of_closers (hP : Forgets P) (h : EndsShut t) (hy : Closers t y)
    (hd : DeniedFor P (t ++ y)) : DeniedFor P t := by
  obtain ⟨l, z, rfl, hdecisive, hsign⟩ := h
  have hswap : Swap (l ++ [z]) [] y [] :=
    { left := parts_of_getLast fun c hc => by
        rw [Option.mem_def, List.getLast?_concat] at hc
        exact Option.some.inj hc ▸ hsign
      right := parts_nil_right y
      sequel := fun s => (hy.closed Sequel.closed_nil).holds Sequel.closed_nil
      fresh := .inl nofun }
  have := hswap.deniedFor_of_closers (P := P) (by simpa using hy) (fun m b₁ => hP m _ _)
    (fun _ _ _ _ _ hr => by simp [fromWord] at hr) (by simpa using hd)
  simpa using this

namespace Component

variable {cfg : Settings} {region : Text}

theorem deniedFor_of_ofTruncated (hP : Forgets P) (hmount : Wordless cfg.canonicalMount)
    (hd : DeniedFor P (ofTruncated cfg region).text) : DeniedFor P region := by
  unfold ofTruncated at hd
  split at hd
  · exact hd
  next cut hcut =>
  have hend := getLast?_of_cut? hcut
  have hbody : Text.trimEnd (region.take cut) = region.take cut :=
    Text.trimEnd_eq_self (by rw [hend]; rintro _ ⟨⟩; decide)
  dsimp only at hd
  split at hd
  · exact hd
  next hgood =>
  rw [hbody] at hd hgood
  simp only [Bool.or_eq_true, Bool.not_eq_true', not_or, Bool.not_eq_false] at hgood
  have hshut : EndsShut (region.take cut) := by
    obtain ⟨l, hl⟩ := List.getLast?_eq_some_iff.mp hend
    exact ⟨l, '>', hl, by decide, by decide⟩
  obtain ⟨e, he, hc⟩ := exists_closings_closeFrames
    (fun f hf => exists_closes_of_isOnlyUnclosed hgood.1 f (List.mem_reverse.mp hf))
    (region.take cut)
  have hnamed : Closers (region.take cut) e := .of_closings hc fun f hf =>
    Scan.named_of_mem_unclosed (Nat.zero_le _) (List.mem_reverse.mp hf)
  dsimp only at hd
  rw [he, List.append_assoc] at hd
  -- from the end on: without the mount call, then without the closers, then with what was cut off
  have hclosed : DeniedFor P (region.take cut ++ e) := by
    have hwordless := hmount.append_left (g := "\n\n".toList) (by decide)
    have := hd.of_endsShut hP (x := []) (hshut.closings hc) hwordless
    rwa [List.append_nil] at this
  have hcut : DeniedFor P (region.take cut ++ []) := by
    rw [List.append_nil]
    exact hclosed.of_closers hP hshut hnamed
  have := hcut.of_endsShut hP (x := region.drop cut) hshut (by decide)
  rwa [List.take_append_drop] at this

theorem isBlank_of_mem_separator {rest : Text} {z : Char} (h : z ∈ separator cfg rest) :
    isBlank z = true := by
  rw [separator] at h
  split at h
  · exact List.all_eq_true.mp List.all_takeWhile z h
  · exact (by decide : ∀ z ∈ "\n\n".toList, isBlank z = true) z h

/-- The declaration of the entry point, from its first word to its brace. -/
theorem entryOpening_split {m : Match} (h : cfg.entryOpening.search? t = some m) :
    ∃ a p r, t = a ++ ("function".toList ++ (p ++ '{' :: r)) ∧ m.start = a.length ∧
      m.stop - 1 = (a ++ ("function".toList ++ p)).length := by
  have hf := finds_of_searchFrom? h
  obtain ⟨a, ht, hstart, hstop⟩ := hf.split
  obtain ⟨u₀, h₀, hlast⟩ := mem_ends_seq.mp hf.last
  obtain ⟨rfl, -⟩ := mem_ends_wordEdge h₀
  obtain ⟨u₁, h₁, hlast⟩ := mem_ends_seq.mp hlast
  have hword := (mem_ends_text h₁).1
  obtain ⟨p, u₂, hp, h₂⟩ := mem_ends_all_concat (a := char '{') (l := [gap, .text cfg.entryName,
    blanks, char '(', many (· != ')'), char ')', blanks,
    opt (all [char ':', blanks, few1 fun c => c != '{' && c != ';']), blanks]) hlast
  have htext : m.text = "function".toList ++ (p ++ ['{']) :=
    ((hword.trans hp).trans (mem_ends_char h₂).1).between.trans (by simp)
  refine ⟨a, p, m.last.cursor.after, ?_, hstart, ?_⟩
  · rw [ht, htext]
    simp
  · rw [hstop, htext]
    simp only [List.length_append, List.length_singleton]
    omega

/-- An isolated component holds no denied code if its text does not. -/
theorem deniedFor_of_ofText (hP : Forgets P) (hmount : Wordless cfg.canonicalMount)
    (hd : DeniedFor P (ofText cfg t).text) : DeniedFor P t := by
  unfold ofText at hd
  split at hd
  · exact hd
  next opening hopening =>
  obtain ⟨a, p, r, ht, hstart, hstop⟩ := entryOpening_split hopening
  have hregion : t.drop opening.start = "function".toList ++ (p ++ '{' :: r) := by
    rw [hstart, ht, List.drop_left]
  -- no denied word begins with the first word of the declaration
  suffices h : DeniedFor P (t.drop opening.start) by
    rw [ht]
    rw [hregion] at h
    exact h.append_left_of_agree (by decide)
  split at hd
  · exact deniedFor_of_ofTruncated hP hmount hd
  next stop hblock =>
  have hbrace : t.drop (opening.stop - 1) = '{' :: r := by
    have he : t = (a ++ ("function".toList ++ p)) ++ '{' :: r := by rw [ht]; simp
    rw [hstop, he, List.drop_left]
  obtain ⟨q, x, hq, hstop', hx⟩ := Text.exists_of_blockEnd? hbrace hblock
  have hslice : t.slice opening.start stop = "function".toList ++ (p ++ (q ++ [x])) := by
    have he : ∃ rest, t = (a ++ ("function".toList ++ (p ++ (q ++ [x])))) ++ rest := by
      refine ⟨t.drop stop, ?_⟩
      conv => lhs; rw [ht, ← hbrace, hq]
      simp
    obtain ⟨rest, he⟩ := he
    have hlen : stop = (a ++ ("function".toList ++ (p ++ (q ++ [x])))).length := by
      rw [hstop', hstop]
      simp only [List.length_append, List.length_singleton]
      omega
    rw [Text.slice, hlen, hstart, he, List.take_left, List.drop_left]
  have hshut : EndsShut (t.slice opening.start stop) := by
    refine ⟨"function".toList ++ (p ++ q), x, by rw [hslice]; simp, ?_⟩
    rcases hx with rfl | rfl | rfl <;> exact ⟨by decide, by decide⟩
  dsimp only at hd
  rw [List.append_assoc] at hd
  have := hd.of_endsShut hP (x := t.drop stop) hshut
    (hmount.append_left fun z hz => not_isSignChar_of_isBlank (isBlank_of_mem_separator hz))
  rw [hregion, ← hbrace, hq]
  rw [hslice] at this
  simpa using this

end Component

end SnippetGate
