import SnippetGate.Proofs.Contract.Mount
import SnippetGate.Proofs.Repair.Typing
import SnippetGate.Proofs.Text.Basic
import SnippetGate.Repair.Duplication

/-!
# Endings taken away leave no denied code

What is taken away stands behind a parenthesis that closes something, and what is left behind it
holds no letters. So nothing that is denied comes together there.
-/

namespace SnippetGate

open Pattern

/-! ### After the mount call -/

namespace Settings

/-- The mount call ends with a parenthesis and signs that belong to no denied word. -/
theorem mountCall_parts {cfg : Settings} {m : Match}
    (h : m.last ∈ cfg.mountCall.ends ⟨m.first, []⟩) :
    ∃ p q, m.text = p ++ ')' :: q ∧ ∀ z ∈ q, isSignChar z = false := by
  obtain ⟨u, hu, h⟩ := mem_ends_seq.mp h
  obtain ⟨v, hv, h⟩ := mem_ends_seq.mp h
  obtain ⟨b, hb, ob, -⟩ := mem_ends_run hv
  obtain ⟨p, w, op, hw⟩ := mem_ends_all_concat (a := char ')')
    (l := [freshCallee, Pattern.text cfg.mountFunction, char '(', blanks, char '<', blanks,
      Pattern.text cfg.entryName, blanks, word "/>", blanks]) hu
  replace op := op.trans (mem_ends_char hw).1
  have hblank : ∀ z ∈ b, isSignChar z = false := fun z hz => not_isSignChar_of_isBlank (hb z hz)
  rcases mem_ends_alt.mp h with h | h
  · obtain ⟨os, -⟩ := mem_ends_char h
    exact ⟨p, b ++ [';'], ((op.trans ob).trans os).between.trans (by simp),
      List.forall_mem_append.mpr ⟨hblank, by decide⟩⟩
  · obtain rfl := mem_ends_empty h
    exact ⟨p, b, (op.trans ob).between.trans (by simp), hblank⟩

end Settings

namespace Repair

variable {cfg : Settings} {t : Text}

theorem denied_of_withoutTailJunk (hd : Denied (withoutTailJunk cfg t)) : Denied t := by
  rw [withoutTailJunk] at hd
  split at hd
  · next m _ hm _ =>
    have hf := finds_of_findLast? hm
    obtain ⟨a, ht, -, hstop⟩ := hf.split
    obtain ⟨p, q, htext, hq⟩ := Settings.mountCall_parts hf.last
    rw [hstop, ← List.length_append] at hd
    rw [ht, ← List.append_assoc] at hd ⊢
    rw [List.take_left, htext, ← List.append_assoc] at hd
    have hwordless : Wordless (')' :: q) :=
      wordless_of_forall (List.forall_mem_cons.mpr ⟨by decide, hq⟩)
    have : Denied (a ++ p ++ ')' :: (q ++ m.last.cursor.after)) :=
      hd.of_tail (fun _ _ _ _ => trivial) (by decide) (by decide) hwordless
    simpa [htext] using this
  · exact hd

/-! ### At the end of the component -/

/-- What ends a component at the end of a text. -/
theorem trailingUnit_parts {head : Text} {m : Match} (h : trailingUnit.search? head = some m) :
    ∃ a p q b, head = a ++ ((p ++ '}' :: q) ++ b) ∧ m.start = a.length ∧
      m.group 1 = p ++ '}' :: q ∧ m.groupStop 1 = a.length + (p ++ '}' :: q).length ∧
      (∀ z ∈ q, isBlank z = true ∨ z = ';') ∧ ∀ z ∈ b, isBlank z = true := by
  have hf := finds_of_searchFrom? h
  obtain ⟨a, hsplit, hstart, hstop⟩ := hf.split
  obtain ⟨u₁, h₁, hlast⟩ := mem_ends_seq.mp hf.last
  obtain ⟨u, hu, rfl⟩ := mem_ends_group h₁
  obtain ⟨p, v, op, hv⟩ := mem_ends_all_concat (a := all [char '}', indent, opt (char ';')])
    (l := [.star (.seq blanks closingTag) true, blanks, char ')', blanks, opt (char ';'), blanks])
    hu
  obtain ⟨v₁, hv₁, hv⟩ := mem_ends_seq.mp hv
  obtain ⟨v₂, hv₂, hv⟩ := mem_ends_seq.mp hv
  obtain ⟨i, hi, oi, -⟩ := mem_ends_run hv₂
  have hq : ∃ q, v.cursor.Over ('}' :: q) u.cursor ∧ ∀ z ∈ q, isBlank z = true ∨ z = ';' := by
    have hindent : ∀ z ∈ i, isBlank z = true ∨ z = ';' :=
      fun z hz => .inl (isBlank_of_isIndent (hi z hz))
    rcases mem_ends_alt.mp hv with hv | hv
    · refine ⟨i ++ [';'], ((mem_ends_char hv₁).1.trans oi).trans (mem_ends_char hv).1, ?_⟩
      exact List.forall_mem_append.mpr ⟨hindent, List.forall_mem_singleton.mpr (.inr rfl)⟩
    · obtain rfl := mem_ends_empty hv
      exact ⟨i, (mem_ends_char hv₁).1.trans oi, hindent⟩
  obtain ⟨q, oq, hq⟩ := hq
  have ounit := op.trans oq
  obtain ⟨w, hw, hend⟩ := mem_ends_seq.mp hlast
  obtain ⟨b, hb, ob, hcap⟩ := mem_ends_run hw
  obtain ⟨hlast', hblank⟩ := mem_ends_textEnd hend
  have hgroup : m.last.group? 1 = some ⟨m.first.pos, u.cursor.pos, p ++ '}' :: q⟩ := by
    rw [hlast', Progress.group?, hcap, Progress.remember, ounit.between]
    rfl
  refine ⟨a, p, q, b ++ m.last.cursor.after, ?_, hstart, ?_, ?_, hq, ?_⟩
  · rw [hsplit, Match.text, hlast', (ounit.trans ob).between]
    simp
  · rw [Match.group, hgroup]
    rfl
  · rw [Match.groupStop, hgroup, ← hstart]
    exact ounit.pos
  · refine List.forall_mem_append.mpr ⟨hb, ?_⟩
    rw [hlast']
    simp only [Cursor.atTextEnd, Bool.or_eq_true, List.isEmpty_iff, beq_iff_eq] at hblank
    rcases hblank with h | h <;> rw [h] <;> decide

/-- Something that squashed ends like the end of a component has a brace or a semicolon at its end,
and blanks behind it. -/
theorem exists_of_squash {l p q : Text} (hq : ∀ z ∈ q, isBlank z = true ∨ z = ';')
    (h : squash (p ++ '}' :: q) <:+ squash l) :
    ∃ k z g, l = k ++ z :: g ∧ (z = '}' ∨ z = ';') ∧ ∀ x ∈ g, isBlank x = true := by
  obtain ⟨s, hs⟩ := h
  have hunit : squash (p ++ '}' :: q) = squash p ++ '}' :: squash q := by
    simp [squash, (by decide : isBlank '}' = false)]
  obtain ⟨r, z, hz⟩ : ∃ r z, '}' :: squash q = r ++ [z] :=
    ⟨_, _, (List.dropLast_append_getLast (List.cons_ne_nil _ _)).symm⟩
  have hmem : z = '}' ∨ z = ';' := by
    have : z ∈ '}' :: squash q := by simp [hz]
    rcases List.mem_cons.mp this with h | h
    · exact .inl h
    · obtain ⟨hz, hblank⟩ := List.mem_filter.mp h
      exact .inr ((hq z hz).resolve_left (by simpa using hblank))
  have hl : l.filter (fun c => !isBlank c) = (s ++ (squash p ++ r)) ++ [z] := by
    have hs' : s ++ squash (p ++ '}' :: q) = l.filter (fun c => !isBlank c) := hs
    rw [← hs', hunit, hz]
    simp
  obtain ⟨k, g', rfl, -, hg'⟩ := List.filter_eq_append_iff.mp hl
  obtain ⟨k', g, rfl, -, -, hg⟩ := List.filter_eq_cons_iff.mp hg'
  refine ⟨k ++ k', z, g, by simp, hmem, fun x hx => ?_⟩
  simpa using List.filter_eq_nil_iff.mp hg x hx

/-- What stands around a repeated end of the component. -/
structure Repeated (cfg : Settings) (t : Text) (i j : Nat) (l : Text) (z : Char) (g x r : Text) : Prop where
  eq : t = l ++ (z :: (g ++ (x ++ r)))
  start : i = (l ++ z :: g).length
  stop : j = (l ++ z :: (g ++ x)).length
  sign : z = '}' ∨ z = ';'
  blank : ∀ y ∈ g, isBlank y = true
  fresh : x ≠ [] ∧ Fresh x
  brace : '}' ∈ x
  mount : ∃ b q, r = b ++ q ∧ (∀ y ∈ b, isBlank y = true) ∧
    (cfg.mountCall.findLast? t = none ∧ q = [] ∨
      ∃ m, cfg.mountCall.findLast? t = some m ∧ m.start = j + b.length)

theorem exists_of_duplicateUnit? {i j : Nat} (h : duplicateUnit? cfg t = some (i, j)) :
    ∃ l z g x r, Repeated cfg t i j l z g x r := by
  rw [duplicateUnit?] at h
  generalize hboundary : ((cfg.mountCall.findLast? t).map Match.start).getD t.length =
    boundary at h
  have hmount : cfg.mountCall.findLast? t = none ∧ t.drop boundary = [] ∨
      ∃ m, cfg.mountCall.findLast? t = some m ∧ m.start = boundary := by
    rw [← hboundary]
    cases hm : cfg.mountCall.findLast? t with
    | none => exact .inl ⟨rfl, List.drop_length ..⟩
    | some m => exact .inr ⟨m, rfl, rfl⟩
  have hle : boundary ≤ t.length := by
    rw [← hboundary]
    cases hm : cfg.mountCall.findLast? t with
    | none => exact Nat.le_refl _
    | some m =>
      obtain ⟨a, ht, hstart, -⟩ := (finds_of_findLast? hm).split
      have := congrArg List.length ht
      simp only [List.length_append] at this
      show m.start ≤ t.length
      omega
  have hoffset : boundary - tailWindow ≤ boundary := Nat.sub_le ..
  dsimp only at h
  generalize boundary - tailWindow = offset at h hoffset
  split at h
  · cases h
  next m hm =>
  obtain ⟨a, p, q, b, hhead, hstart, hgroup, hstop, hq, hb⟩ := trailingUnit_parts hm
  split at h
  · next hrepeats =>
    rw [hgroup, Bool.and_eq_true, List.isSuffixOf_iff_suffix, hhead, hstart, List.take_left]
      at hrepeats
    obtain ⟨k, z, g, rfl, hz, hg⟩ := exists_of_squash hq hrepeats.2
    obtain ⟨rfl, rfl⟩ := Prod.mk.inj (Option.some.inj h)
    have hlen : (t.take offset).length = offset := by
      rw [List.length_take, Nat.min_eq_left (hoffset.trans hle)]
    have hsplit := Text.take_slice_drop t hoffset
    rw [hhead] at hsplit
    have hhead' := congrArg List.length hhead
    simp only [Text.slice, List.length_drop, List.length_take, Nat.min_eq_left hle] at hhead'
    refine ⟨t.take offset ++ k, z, g, p ++ '}' :: q, b ++ t.drop boundary, ?_, ?_, ?_, hz, hg,
      ⟨by simp, fun y hy => ?_⟩, by simp, b, t.drop boundary, rfl, hb, hmount.imp_right ?_⟩
    · conv => lhs; rw [← hsplit]
      simp
    · rw [hstart]
      simp only [List.length_append, hlen, Nat.add_assoc]
    · rw [hstop]
      simp only [List.length_append, hlen, List.length_cons]
      omega
    · rw [List.getLast?_append_of_ne_nil _ (List.cons_ne_nil _ _)] at hy
      rcases List.mem_cons.mp (List.mem_of_getLast? hy) with rfl | hy
      · decide
      · rcases hq y hy with hy | rfl
        · exact Sign.afterMember_of_isBlank hy
        · decide
    · rintro ⟨m', hm', hstart'⟩
      refine ⟨m', hm', ?_⟩
      rw [hstart', hstop]
      simp only [List.length_append] at hhead' ⊢
      omega
  · cases h

/-- Behind the last mount call no other stands. -/
theorem not_mounts_of_findLast? {u c : Text} {m : Match}
    (h : Settings.standard.mountCall.findLast? (u ++ c) = some m) (hlt : m.start < u.length)
    (hc : ∀ z ∈ c.head?, isBlank z = true) : ¬ Mounts c := by
  rintro ⟨p, w, q, rfl, hw, hp⟩
  have hne : p ≠ [] := by
    rintro rfl
    obtain ⟨k, rfl⟩ := hw.exists_cons
    exact absurd (hc 'r' rfl) (by decide)
  obtain ⟨m', hm', hle⟩ := exists_findLast?_mountCall (q := q) hw (fresh_append_of_ne_nil u hne hp)
  rw [List.append_assoc, h] at hm'
  obtain rfl := Option.some.inj hm'
  rw [List.length_append] at hle
  omega

/-- A repeated end can be put back: an import across the place would go over the last mount call,
or over the end of the text. -/
theorem Repeated.deniedFor {i j : Nat} {l g x r : Text} {z : Char}
    (h : Repeated .standard t i j l z g x r) (hd : DeniedFor Calm (t.take i ++ t.drop j)) :
    DeniedFor Calm t := by
  obtain ⟨rfl, rfl, rfl, hz, hg, ⟨hne, hfresh⟩, -, b, q, rfl, hb, hmount⟩ := h
  have htake : (l ++ z :: (g ++ (x ++ (b ++ q)))).take (l ++ z :: g).length = l ++ z :: g := by
    have he : l ++ z :: (g ++ (x ++ (b ++ q))) = (l ++ z :: g) ++ (x ++ (b ++ q)) := by simp
    rw [he, List.take_left]
  have hdrop : (l ++ z :: (g ++ (x ++ (b ++ q)))).drop (l ++ z :: (g ++ x)).length = b ++ q := by
    have he : l ++ z :: (g ++ (x ++ (b ++ q))) = (l ++ z :: (g ++ x)) ++ (b ++ q) := by simp
    rw [he, List.drop_left]
  rw [htake, hdrop] at hd
  have hsign : isSignChar z = false := by rcases hz with rfl | rfl <;> decide
  have hdecisive : Sequel.isDecisive z = true := by rcases hz with rfl | rfl <;> decide
  have hsigns : ∀ c ∈ z :: g, isSignChar c = false :=
    List.forall_mem_cons.mpr ⟨hsign, fun c hc => not_isSignChar_of_isBlank (hg c hc)⟩
  have hswap : Swap l (z :: (g ++ x)) (z :: g) (b ++ q) :=
    { left := parts_of_head fun c hc => Option.some.inj hc ▸ hsign
      right := parts_of_getLast fun c hc => hsigns c (List.mem_of_getLast? hc)
      sequel := fun s => Sequel.holds_of_isDecisive hdecisive
      fresh := .inr ⟨List.cons_ne_nil _ _, .inr fun c hc => by
        rw [← List.cons_append, List.getLast?_append_of_ne_nil _ hne] at hc
        exact hfresh c hc⟩ }
  have := hswap.deniedFor_of_wordless (P := Calm) (wordless_of_forall hsigns)
    (fun k c hk => hk.imp fun hc => ?_) (fun a m₁ m₂ c hl hr hgap _ hk => ?_) (by simpa using hd)
  · simpa using this
  · have hcut : Mounts (c ++ z :: (g ++ (b ++ q))) := by simpa using hc
    have hx : z ∉ "render(<GeneratedLesson/>)".toList := by rcases hz with rfl | rfl <;> decide
    have hzb : isBlank z = false := by rcases hz with rfl | rfl <;> decide
    rcases hcut.cases_of_not_mem hzb hx with h | h
    · exact h.append_right _
    · have := (h.of_blanks hg).append_left
        (fresh_append_of_ne_nil (c ++ z :: g) hne hfresh)
      simpa using this
  · exfalso
    rcases hmount with ⟨-, rfl⟩ | ⟨m, hm, hstart⟩
    · have hf : 'f' ∈ b ++ [] := by rw [hr]; simp [fromWord]
      rw [List.append_nil] at hf
      exact absurd (hb _ hf) (by decide)
    have hc : ∀ y ∈ c.head?, isBlank y = true := fun y hy => by
      obtain ⟨c', rfl⟩ := List.head?_eq_some_iff.mp (Option.mem_def.mp hy)
      by_contra hblank
      simp [Sequel.holds_cons, Sequel.step, hblank] at hgap
    have hmounts : ¬ Mounts c := by
      refine not_mounts_of_findLast? (u := l ++ z :: (g ++ x) ++ (m₂ ++ fromWord)) (m := m) ?_ ?_ hc
      · rw [← hm, hr]
        simp
      · have hlt : b.length < (m₂ ++ fromWord).length := by
          by_contra hge
          have hmem : 'f' ∈ b := by
            have hpre : m₂ ++ fromWord <+: b :=
              List.prefix_of_prefix_length_le ⟨c, by rw [hr, List.append_assoc]⟩ ⟨q, rfl⟩
                (not_lt.mp hge)
            exact hpre.subset (by simp [fromWord])
          exact absurd (hb _ hmem) (by decide)
        have hlen : (l ++ z :: (g ++ x) ++ (m₂ ++ fromWord)).length =
            (l ++ z :: (g ++ x)).length + (m₂ ++ fromWord).length := List.length_append
        omega
    have hm₂ : ¬ Mounts m₂ := fun h => by
      refine (hk.resolve_right hmounts) ?_
      have hfresh : Fresh (z :: g) := fresh_of_forall <| List.forall_mem_cons.mpr
        ⟨by rcases hz with rfl | rfl <;> decide, fun y hy => Sign.afterMember_of_isBlank (hg y hy)⟩
      have := h.append_left (fresh_append_of_ne_nil m₁ (List.cons_ne_nil z g) hfresh)
      simpa using this
    obtain ⟨p, w, g', s, heq, hw, -, hstart', -⟩ := mount_of_finds (finds_of_findLast? hm)
    have hq : Mounts (b ++ q) := by
      have heq' : (l ++ z :: (g ++ x) ++ b) ++ q =
          p ++ (w ++ (g' ++ (s ++ m.last.cursor.after))) := by
        rw [← heq]
        simp
      have hq := List.append_inj_right heq' (by rw [← hstart', hstart, List.length_append])
      exact Mounts.append_left ⟨[], w, _, hq, hw, fresh_nil⟩ (fresh_of_blanks hb)
    rw [hr] at hq
    exact hq.cases_of_from.elim hm₂ hmounts

theorem denied_of_withoutDuplicates {n : Nat}
    (hd : DeniedFor Calm (withoutDuplicates .standard n t)) : DeniedFor Calm t := by
  induction n generalizing t with
  | zero => exact hd
  | succ n ih =>
    rw [withoutDuplicates] at hd
    split at hd
    · exact hd
    · next i j hunit =>
      obtain ⟨l, z, g, x, r, h⟩ := exists_of_duplicateUnit? hunit
      exact h.deniedFor (ih hd)

/-! ### After the end of the returned value -/

section

variable {s u : SnippetGate.Progress}

/-- What the end of the returned value consists of. -/
theorem returnClose_over (h : u ∈ returnClose.ends s) :
    ∃ i j, s.cursor.Over ('\n' :: (i ++ ')' :: ';' :: j)) u.cursor ∧
      ∀ z ∈ j, Text.isIndent z = true := by
  obtain ⟨u₁, h₁, h⟩ := mem_ends_seq.mp h
  obtain ⟨u₂, h₂, h⟩ := mem_ends_seq.mp h
  obtain ⟨u₃, h₃, h⟩ := mem_ends_seq.mp h
  obtain ⟨i, -, oi, -⟩ := mem_ends_run h₂
  obtain ⟨j, hj, oj, -⟩ := mem_ends_run h
  refine ⟨i, j, ?_, hj⟩
  simpa using (((mem_ends_char h₁).1.trans oi).trans (mem_ends_text h₃).1).trans oj

/-- The character before a place allows every sign behind it. -/
def Allows (c : Cursor) : Prop := ∃ z, c.before.head? = some z ∧ Sign.afterMember z = false

theorem allows_of_over {c d : Cursor} {z : Char} {p j : Text} (h : c.Over (p ++ z :: j) d)
    (hz : Sign.afterMember z = false) (hj : ∀ z ∈ j, Text.isIndent z = true) : Allows d := by
  rw [Allows, h.before]
  rcases List.eq_nil_or_concat j with rfl | ⟨k, y, rfl⟩
  · exact ⟨z, by simp, hz⟩
  · refine ⟨y, by simp, ?_⟩
    have := hj y (by simp)
    simp only [Text.isIndent, Bool.or_eq_true, beq_iff_eq] at this
    rcases this with rfl | rfl <;> decide

theorem allows_of_returnClose (h : u ∈ returnClose.ends s) : Allows u.cursor := by
  obtain ⟨i, j, ho, hj⟩ := returnClose_over h
  exact allows_of_over (p := '\n' :: (i ++ [')'])) (z := ';') (by simpa using ho) (by decide) hj

/-- A line of a closing tag, with the newline before it. -/
def closingLine : Pattern := all [char '\n', indent, closingTag, indent]

theorem allows_of_closingLine (h : u ∈ closingLine.ends s) : Allows u.cursor := by
  obtain ⟨u₁, h₁, h⟩ := mem_ends_seq.mp h
  obtain ⟨u₂, h₂, h⟩ := mem_ends_seq.mp h
  obtain ⟨u₃, h₃, h⟩ := mem_ends_seq.mp h
  obtain ⟨p, w, -, hw⟩ := mem_ends_all_concat (a := char '>') (l := [word "</", tagName, blanks]) h₃
  obtain ⟨j, hj, oj, -⟩ := mem_ends_run h
  exact allows_of_over (p := []) ((mem_ends_char hw).1.trans oj) (by decide) hj

/-- An end of the returned value, and something behind it that is taken away. -/
def doubledEnd (a : Pattern) : Pattern := all [.group 1 returnClose, plus a, blockCloseAhead]

/-- What an end of the returned value and what is taken away behind it consist of. -/
theorem doubledEnd_parts {a : Pattern} {m : Match} (hplain : (plus a).isUngrouped = true)
    (ha : ∀ {s u}, u ∈ a.ends s → Allows u.cursor)
    (h : m.last ∈ (doubledEnd a).ends ⟨m.first, []⟩) :
    ∃ i j q, m.group 1 = '\n' :: (i ++ ')' :: ';' :: j) ∧
      m.text = '\n' :: (i ++ ')' :: ';' :: (j ++ q)) ∧
      (∀ z ∈ j, Text.isIndent z = true) ∧ ∀ z ∈ m.text.getLast?, Sign.afterMember z = false := by
  obtain ⟨u₁, h₁, h⟩ := mem_ends_seq.mp h
  obtain ⟨u, hu, rfl⟩ := mem_ends_group h₁
  obtain ⟨v, hv, h⟩ := mem_ends_seq.mp h
  have hlast := mem_ends_ahead h
  obtain ⟨i, j, oi, hj⟩ := returnClose_over hu
  obtain ⟨q, oq⟩ := exists_over_of_mem_ends hv
  have oall := oi.trans oq
  have htext : m.text = '\n' :: (i ++ ')' :: ';' :: (j ++ q)) := by
    rw [Match.text, hlast]
    exact oall.between.trans (by simp)
  obtain ⟨w, hw⟩ := mem_ends_plus hv
  obtain ⟨z, hz, hallowed⟩ := ha hw
  refine ⟨i, j, q, ?_, htext, hj, fun y hy => ?_⟩
  · rw [Match.group, hlast, Progress.group?, captures_of_mem_ends hplain hv]
    exact oi.between
  · rw [oall.before, List.head?_append_of_ne_nil _ (by simp), List.head?_reverse] at hz
    rw [htext] at hy
    have hsame : '\n' :: (i ++ ')' :: ';' :: j) ++ q = '\n' :: (i ++ ')' :: ';' :: (j ++ q)) := by
      simp
    rw [hsame] at hz
    obtain rfl := Option.some.inj (hz.symm.trans hy)
    exact hallowed

theorem endsInWord_eq_false {t : Text} (h : ∀ z ∈ t.getLast?, Sign.afterMember z = false) :
    endsInWord t = false := by
  rw [endsInWord]
  cases hl : t.getLast? with
  | none => rfl
  | some z =>
    have := h z hl
    simp only [Sign.afterMember, isNameChar, Bool.or_eq_false_iff] at this
    exact this.1.1

theorem mendsWell_doubledEnd {a : Pattern} (hplain : (plus a).isUngrouped = true)
    (ha : ∀ {s u}, u ∈ a.ends s → Allows u.cursor) :
    MendsWell (DeniedFor Calm) (doubledEnd a) (·.group 1) := by
  have hindent {z : Char} (h : Text.isIndent z = true) :
      isSignChar z = false ∧ Sign.afterMember z = false := by
    simp only [Text.isIndent, Bool.or_eq_true, beq_iff_eq] at h
    rcases h with rfl | rfl <;> decide
  constructor
  · intro m hm
    obtain ⟨i, j, q, -, htext, -⟩ := doubledEnd_parts hplain ha hm
    simp [htext]
  · intro m hm
    obtain ⟨i, j, q, hgroup, -⟩ := doubledEnd_parts hplain ha hm
    simp [hgroup]
  · intro m hm
    obtain ⟨i, j, q, hgroup, htext, hj, hlast⟩ := doubledEnd_parts hplain ha hm
    have hg : m.group 1 = ('\n' :: (i ++ [')'])) ++ (';' :: j) := by simp [hgroup]
    rw [endsInWord_eq_false hlast, hg, endsInWord_append _ (List.cons_ne_nil _ _)]
    refine endsInWord_eq_false fun z hz => ?_
    rcases List.mem_cons.mp (List.mem_of_getLast? (Option.mem_def.mp hz)) with rfl | hz
    · decide
    · exact (hindent (hj z hz)).2
  · intro m l hm _ hd
    obtain ⟨i, j, q, hgroup, htext, hj, hlast⟩ := doubledEnd_parts hplain ha hm
    have hsigns : ∀ z ∈ ')' :: ';' :: j, isSignChar z = false := by
      simp only [List.forall_mem_cons]
      exact ⟨by decide, by decide, fun z hz => (hindent (hj z hz)).1⟩
    have hswap : Swap (l ++ '\n' :: i) (')' :: ';' :: (j ++ q)) (')' :: ';' :: j)
        m.last.cursor.after :=
      { left := parts_of_head fun z hz => hsigns z (List.mem_of_head? (Option.mem_def.mp hz))
        right := parts_of_getLast fun z hz => hsigns z (List.mem_of_getLast? (Option.mem_def.mp hz))
        sequel := fun s => Sequel.holds_of_isDecisive (by decide)
        fresh := .inr ⟨List.cons_ne_nil _ _, .inr fun z hz => hlast z (by
          have h : m.text = ('\n' :: i) ++ (')' :: ';' :: (j ++ q)) := by simp [htext]
          rwa [h, List.getLast?_append_of_ne_nil _ (List.cons_ne_nil _ _)])⟩ }
    have hfresh (b₁ : Text) : Fresh (b₁ ++ ')' :: ';' :: (j ++ q)) := fun z hz => hlast z (by
      have h : m.text = ('\n' :: i) ++ (')' :: ';' :: (j ++ q)) := by simp [htext]
      rwa [h, List.getLast?_append_of_ne_nil _ (List.cons_ne_nil _ _),
        ← List.getLast?_append_of_ne_nil b₁ (List.cons_ne_nil _ _)])
    have := hswap.deniedFor_of_wordless (P := Calm) (wordless_of_forall hsigns)
      (fun k b₁ hk => hk.imp fun h => ?_) (fun a m₁ m₂ b _ _ _ hm _ => ?_)
      (by simpa [hgroup] using hd)
    · simpa [htext] using this
    · have hcut : Mounts ((b₁ ++ [')']) ++ ';' :: (j ++ m.last.cursor.after)) := by simpa using h
      rcases hcut.cases_of_not_mem (by decide) (by decide) with h | h
      · simpa using h.append_right (';' :: (j ++ q) ++ m.last.cursor.after)
      · simpa using (h.of_blanks fun z hz => isBlank_of_isIndent (hj z hz)).append_left (hfresh b₁)
    · exact absurd hm (Clause.not_of_mem (c := ';') (by decide) (by decide) (by simp))

theorem mendsWell_doubledReturnClose : MendsWell (DeniedFor Calm) doubledReturnClose (·.group 1) :=
  mendsWell_doubledEnd (a := returnClose) rfl allows_of_returnClose

theorem mendsWell_orphanClosers : MendsWell (DeniedFor Calm) orphanClosers (·.group 1) :=
  mendsWell_doubledEnd (a := closingLine) rfl allows_of_closingLine

end

end Repair

end SnippetGate
