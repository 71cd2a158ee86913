import SnippetGate.Contract.Corruption
import SnippetGate.Proofs.Denylist.Keeps

/-!
# Mended typing errors hold no denied code

Each of these repairs puts a few fixed characters in place of others. None of the new characters
belongs to a denied word, and the characters next to them keep denied words away from them.
-/

namespace SnippetGate

open Pattern

/-! ### Swaps of fixed texts -/

/-- What can be checked of two texts so that the second can take the place of the first. -/
structure Retyped (x y : Text) : Prop where
  ne_nil : x ≠ []
  last : x.getLast? = y.getLast?
  wordless : Wordless y
  flat : (∀ z ∈ y, isFlat z = true) → ∀ z ∈ x, isFlat z = true

/-- A fixed text can take the place of one that begins and ends like it. -/
theorem Retyped.denied {z : Char} {x y l r : Text} (h : Retyped (z :: x) (z :: y))
    (hz : Sequel.isDecisive z = true) (hl : Parts l (z :: y ++ r)) (hr : Parts (z :: y) r)
    (hd : Denied (l ++ (z :: y ++ r))) : Denied (l ++ (z :: x ++ r)) := by
  have hswap : Swap l (z :: x) (z :: y) r :=
    { left := hl
      right := hr
      sequel := fun s => Sequel.holds_of_isDecisive hz
      fresh := .inr ⟨h.ne_nil, .inl h.last⟩ }
  refine hswap.denied_of_wordless h.wordless (fun m₁ m₂ hm => ?_) hd
  refine hm.swap (List.cons_ne_nil z y) (fun c hc => ?_) h.flat
  obtain rfl := Option.some.inj hc
  simp only [Sequel.isDecisive, Bool.and_eq_true, Bool.not_eq_true'] at hz
  exact hz.1.1.1

namespace Signature

/-- A word of markup can take the place of one, with the signs around it. -/
theorem denied_of_replace {z : Char} {x y t : Text} (h : Retyped (z :: x) (z :: y))
    (hz : Sequel.isDecisive z = true) (hhead : isSignChar z = false)
    (hlast : ∀ c ∈ (z :: y).getLast?, isSignChar c = false)
    (hd : Denied (t.replace (z :: x) (z :: y))) : Denied t := by
  refine hd.of_replace (List.cons_ne_nil z x) fun l r => h.denied hz (parts_of_head ?_)
    (parts_of_getLast hlast)
  intro c hc
  obtain rfl := Option.some.inj hc
  exact hhead

theorem denied_of_fusedInput {t : Text}
    (hd : Denied (t.replace "<inputype=".toList "<input type=".toList)) : Denied t := by
  have h : Retyped "<inputype=".toList "<input type=".toList :=
    ⟨by decide, rfl, by decide, fun _ => by decide⟩
  exact denied_of_replace h (by decide) (by decide) (by rintro _ ⟨⟩; decide) hd

theorem denied_of_fusedButton {t : Text}
    (hd : Denied (t.replace "<buttonClick=".toList "<button onClick=".toList)) : Denied t := by
  have h : Retyped "<buttonClick=".toList "<button onClick=".toList :=
    ⟨by decide, rfl, by decide, fun _ => by decide⟩
  exact denied_of_replace h (by decide) (by decide) (by rintro _ ⟨⟩; decide) hd

/-! ### Words in class lists -/

section

variable {bad : Text} {m : Match}

/-- What a word in a class list consists of. -/
theorem classWord_parts (h : m.last ∈ (classWord bad).ends ⟨m.first, []⟩)
    (hbad : bad.head?.any isWord = true) (hend : endsInWord bad = true) :
    m.text = m.group 1 ++ bad ∧ m.group 1 ≠ [] ∧ endsInWord (m.group 1) = false ∧
      ∀ z ∈ m.last.cursor.after.head?, isWord z = false := by
  obtain ⟨u, hu, h⟩ := mem_ends_seq.mp h
  obtain ⟨u', hu', rfl⟩ := mem_ends_group hu
  obtain ⟨v, hv, h⟩ := mem_ends_seq.mp h
  obtain ⟨rfl, hedge⟩ := mem_ends_wordEdge hv
  obtain ⟨w, hw, h⟩ := mem_ends_seq.mp h
  obtain ⟨hover, hcap⟩ := mem_ends_text hw
  obtain ⟨hlast, hedge'⟩ := mem_ends_wordEdge h
  obtain ⟨g, hg⟩ := exists_over_of_mem_ends hu'
  have hgroup : m.group 1 = g := by
    rw [Match.group, hlast, Progress.group?, hcap]
    exact hg.between
  have hne : g ≠ [] := by
    obtain ⟨v, hv, hu'⟩ := mem_ends_seq.mp hu'
    obtain ⟨k, hk⟩ := exists_over_of_mem_ends hu'
    have ho := (mem_ends_text hv).1.trans hk
    have he : g = "className".toList ++ k := hg.between.symm.trans ho.between
    rw [he]
    exact List.cons_ne_nil _ _
  have hnext : w.cursor.before = bad.reverse ++ (g.reverse ++ m.first.before) := by
    rw [hover.before, ← hg.before]
    rfl
  refine ⟨?_, ?_, ?_, ?_⟩
  · rw [hgroup, Match.text, hlast]
    exact (hg.trans hover).between
  · rwa [hgroup]
  · have hafter : u'.cursor.isBefore isWord = true := by
      have ha : u'.cursor.after = bad ++ w.cursor.after := hover.after
      obtain ⟨x, b, rfl⟩ : ∃ x b, bad = x :: b := by
        cases bad with
        | nil => cases hbad
        | cons x b => exact ⟨x, b, rfl⟩
      rw [Cursor.isBefore, ha]
      simpa using hbad
    have hu : u'.cursor.isAfter isWord = false := by
      have : u'.cursor.atWordEdge = true := hedge
      rw [Cursor.atWordEdge, hafter] at this
      simpa using this
    rw [Cursor.isAfter_isWord, hg.before, List.reverse_append, List.reverse_reverse,
      endsInWord_append _ hne] at hu
    rwa [hgroup]
  · have hb : w.cursor.isAfter isWord = true := by
      have hne' : bad ≠ [] := by
        rintro rfl
        cases hbad
      rw [Cursor.isAfter_isWord, hnext, List.reverse_append, List.reverse_reverse,
        endsInWord_append _ hne', hend]
    have : w.cursor.isBefore isWord = false := by
      rw [Cursor.atWordEdge, hb] at hedge'
      simpa using hedge'
    rw [hlast]
    intro z hz
    obtain ⟨r, hr⟩ := List.head?_eq_some_iff.mp (Option.mem_def.mp hz)
    rw [Cursor.isBefore, hr] at this
    exact this

/-- Two class names run together around a shared letter, and the same names apart. What they have
in common at the beginning is `q`, and ends with the character `e`. -/
theorem mendsWell_classWord {e z : Char} {q x y : Text} (h : Retyped (z :: x) (z :: y))
    (hz : Sequel.isDecisive z = true) (hq : q.getLast? = some e)
    (hhead : q.head?.any isWord = true) (hlast : endsInWord (z :: x) = true)
    (hin : runsInto (· == e) (z :: y) = false)
    (hout : runsOut (z :: y) (fun c => !isWord c) = false) :
    MendsWell Denied (classWord (q ++ z :: x)) fun m => m.group 1 ++ (q ++ z :: y) := by
  have hne : q ≠ [] := by
    rintro rfl
    cases hq
  have hbad : (q ++ z :: x).head?.any isWord = true := by
    cases q with
    | nil => exact absurd rfl hne
    | cons c q => exact hhead
  have hend : endsInWord (q ++ z :: x) = true := by
    rw [endsInWord_append _ (List.cons_ne_nil z x), hlast]
  have hend' : endsInWord (q ++ z :: y) = true := by
    rw [endsInWord_append _ (List.cons_ne_nil z y), endsInWord, ← h.last]
    exact hlast
  constructor
  · intro m hm
    rw [(classWord_parts hm hbad hend).1]
    simp
  · intro m hm
    simp
  · intro m hm
    rw [(classWord_parts hm hbad hend).1, endsInWord_append _ (by simp), hend',
      endsInWord_append _ (by simp), hend]
  · intro m l hm _ hd
    obtain ⟨htext, -, -, hr⟩ := classWord_parts hm hbad hend
    have hleft : Parts (l ++ (m.group 1 ++ q)) (z :: y ++ m.last.cursor.after) := by
      refine parts_of_runsInto hin fun c hc => ?_
      rw [← List.append_assoc, List.getLast?_append_of_ne_nil _ hne, hq] at hc
      obtain rfl := Option.some.inj hc
      exact beq_self_eq_true _
    have hright : Parts (z :: y) m.last.cursor.after :=
      parts_of_runsOut hout fun c hc => by simp [hr c hc]
    have := h.denied hz hleft hright (by simpa using hd)
    rw [htext]
    simpa using this

theorem denied_of_mendClass {bad good t : Text}
    (h : MendsWell Denied (classWord bad) fun m => m.group 1 ++ good) (n : Nat)
    (hd : Denied (mendClass bad good n t)) : Denied t := by
  induction n generalizing t with
  | zero => exact hd
  | succ n ih =>
    rw [mendClass] at hd
    split at hd
    · exact hd
    · exact h.of_replaceAll (ih hd)

theorem denied_of_fusedBorderRounded {t : Text}
    (hd : Denied (mendClass "borderounded".toList "border rounded".toList classRounds t)) :
    Denied t := by
  have h : Retyped "derounded".toList "der rounded".toList :=
    ⟨by decide, rfl, by decide, fun _ => by decide⟩
  exact denied_of_mendClass (mendsWell_classWord (q := "bor".toList) (e := 'r') h (by decide) rfl
    (by decide) (by decide) (by decide) (by decide)) classRounds hd

theorem denied_of_fusedRoundedDisabled {t : Text}
    (hd : Denied (mendClass "roundedisabled".toList "rounded disabled".toList classRounds t)) :
    Denied t := by
  have h : Retyped "disabled".toList "d disabled".toList :=
    ⟨by decide, rfl, by decide, fun _ => by decide⟩
  exact denied_of_mendClass (mendsWell_classWord (q := "rounde".toList) (e := 'e') h (by decide)
    rfl (by decide) (by decide) (by decide) (by decide)) classRounds hd

/-! ### Event attributes -/

/-- What an event attribute with a doubled beginning consists of. -/
theorem doubledEvent_parts (h : m.last ∈ doubledEvent.ends ⟨m.first, []⟩) :
    ∃ o : Char, (o = 'O' ∨ o = 'o') ∧
      m.text = 'o' :: 'n' :: o :: 'n' :: (m.group 1 ++ m.group 2) ∧
      (m.group 1).head?.any Char.isUpper = true ∧ (m.group 2).getLast? = some '=' ∧
      m.first.isAfter isWord = false := by
  obtain ⟨u₀, h₀, h⟩ := mem_ends_seq.mp h
  obtain ⟨rfl, hedge⟩ := mem_ends_wordEdge h₀
  obtain ⟨u₁, h₁, h⟩ := mem_ends_seq.mp h
  obtain ⟨on, c₁⟩ := mem_ends_text h₁
  obtain ⟨u₂, h₂, h⟩ := mem_ends_seq.mp h
  obtain ⟨o, ho, oo, c₂⟩ := mem_ends_one h₂
  obtain ⟨u₃, h₃, h⟩ := mem_ends_seq.mp h
  obtain ⟨oN, c₃⟩ := mem_ends_char h₃
  obtain ⟨u₄, h₄, h⟩ := mem_ends_seq.mp h
  obtain ⟨u, hu, rfl⟩ := mem_ends_group h₄
  obtain ⟨v, hv, hu⟩ := mem_ends_seq.mp hu
  obtain ⟨c, hc, oc, c₄⟩ := mem_ends_one hv
  obtain ⟨g, -, og, c₅⟩ := mem_ends_run hu
  obtain ⟨w, hw, hlast⟩ := mem_ends_group h
  obtain ⟨k, hk, hw⟩ := mem_ends_seq.mp hw
  obtain ⟨b, -, ob, c₆⟩ := mem_ends_run hk
  obtain ⟨oe, c₇⟩ := mem_ends_char hw
  have hone : u₃.cursor.Over (c :: g) u.cursor := oc.trans og
  have htwo : u.cursor.Over (b ++ ['=']) w.cursor := Cursor.Over.trans ob oe
  have h₁ : m.group 1 = c :: g := by
    rw [Match.group, hlast, Progress.group?, Progress.remember, c₇, c₆]
    exact hone.between
  have h₂ : m.group 2 = b ++ ['='] := by
    rw [Match.group, hlast, Progress.group?]
    exact htwo.between
  have htext : m.text = 'o' :: 'n' :: o :: 'n' :: ((c :: g) ++ (b ++ ['='])) := by
    rw [Match.text, hlast]
    exact ((((on.trans oo).trans oN).trans hone).trans htwo).between.trans (by simp)
  refine ⟨o, by simpa using ho, by rw [h₁, h₂, htext], by simpa [h₁] using hc, by simp [h₂], ?_⟩
  have hbefore : m.first.isBefore isWord = true := by
    have ha : m.first.after = 'o' :: 'n' :: u₁.cursor.after := on.after
    rw [Cursor.isBefore, ha]
    exact (by decide : isWord 'o' = true)
  have : m.first.atWordEdge = true := hedge
  rw [Cursor.atWordEdge, hbefore] at this
  simpa using this

theorem mendsWell_doubledEvent :
    MendsWell Denied doubledEvent fun m => "on".toList ++ m.group 1 ++ m.group 2 := by
  constructor
  · intro m hm
    obtain ⟨o, -, htext, -⟩ := doubledEvent_parts hm
    simp [htext]
  · intro m hm
    simp
  · intro m hm
    obtain ⟨o, -, htext, -, hlast, -⟩ := doubledEvent_parts hm
    have hne : m.group 2 ≠ [] := by
      intro hnil
      simp [hnil] at hlast
    have h (q : Text) : endsInWord (q ++ m.group 2) = endsInWord (m.group 2) :=
      endsInWord_append q hne
    rw [h, htext, ← h ('o' :: 'n' :: o :: 'n' :: m.group 1)]
    rfl
  · intro m l hm hl hd
    obtain ⟨o, ho, htext, hupper, hlast, hfirst⟩ := doubledEvent_parts hm
    have h : Retyped ['o', 'n', o, 'n'] ['o', 'n'] := by
      refine ⟨by simp, by simp, by decide, fun _ => ?_⟩
      rcases ho with rfl | rfl <;> decide
    have hleft : Parts l (['o', 'n'] ++ (m.group 1 ++ (m.group 2 ++ m.last.cursor.after))) := by
      refine parts_of_runsInto (p := fun c => !isWord c) (by decide) fun c hc => ?_
      rw [hfirst, endsInWord, Option.mem_def.mp hc] at hl
      simpa using hl
    have hright : Parts ['o', 'n'] (m.group 1 ++ (m.group 2 ++ m.last.cursor.after)) := by
      refine parts_of_runsOut (p := Char.isUpper) (by decide) fun c hc => ?_
      cases hg : m.group 1 with
      | nil => simp [hg] at hupper
      | cons x g =>
        rw [hg] at hc hupper
        obtain rfl := Option.some.inj hc
        exact hupper
    have := h.denied (by decide) hleft hright (by simpa using hd)
    rw [htext]
    simpa using this

/-! ### Empty code -/

theorem getLast?_cons_concat (c d : Char) (q : Text) : (c :: (q ++ [d])).getLast? = some d := by
  rw [← List.cons_append, List.getLast?_concat]

/-- What an `else` whose block is closed by the end of the function consists of. -/
theorem emptyElse_parts (h : m.last ∈ emptyElse.ends ⟨m.first, []⟩) :
    (∃ q, m.text = '}' :: (q ++ [';'])) ∧ ∀ z ∈ m.group 1, Text.isIndent z = true := by
  obtain ⟨u₁, h₁, h⟩ := mem_ends_seq.mp h
  obtain ⟨u₂, h₂, h⟩ := mem_ends_seq.mp h
  obtain ⟨u₃, h₃, h⟩ := mem_ends_seq.mp h
  obtain ⟨u₄, h₄, h⟩ := mem_ends_seq.mp h
  obtain ⟨u₅, h₅, h⟩ := mem_ends_seq.mp h
  obtain ⟨u₆, h₆, h⟩ := mem_ends_seq.mp h
  obtain ⟨u₇, h₇, h⟩ := mem_ends_seq.mp h
  obtain ⟨u₈, h₈, h⟩ := mem_ends_seq.mp h
  obtain ⟨u, hu, rfl⟩ := mem_ends_group h₈
  obtain ⟨g, hg, og, -⟩ := mem_ends_run hu
  obtain ⟨oe, ce⟩ := mem_ends_text h
  obtain ⟨a₂, o₂⟩ := exists_over_of_mem_ends h₂
  obtain ⟨a₃, o₃⟩ := exists_over_of_mem_ends h₃
  obtain ⟨a₄, o₄⟩ := exists_over_of_mem_ends h₄
  obtain ⟨a₅, o₅⟩ := exists_over_of_mem_ends h₅
  obtain ⟨a₆, o₆⟩ := exists_over_of_mem_ends h₆
  obtain ⟨a₇, o₇⟩ := exists_over_of_mem_ends h₇
  have oend : u.cursor.Over ['}', ';'] m.last.cursor := oe
  have hall := ((((((((mem_ends_char h₁).1.trans o₂).trans o₃).trans o₄).trans o₅).trans
    o₆).trans o₇).trans og).trans oend
  have hgroup : m.group 1 = g := by
    rw [Match.group, Progress.group?, ce]
    exact og.between
  refine ⟨⟨a₂ ++ (a₃ ++ (a₄ ++ (a₅ ++ (a₆ ++ (a₇ ++ (g ++ ['}'])))))), ?_⟩, ?_⟩
  · rw [Match.text, hall.between]
    simp
  · rwa [hgroup]

theorem not_isSignChar_of_isIndent {z : Char} (h : Text.isIndent z = true) :
    isSignChar z = false := by
  simp only [Text.isIndent, Bool.or_eq_true, beq_iff_eq] at h
  rcases h with rfl | rfl <;> decide

theorem mendsWell_emptyElse :
    MendsWell Denied emptyElse fun m => "\x7d\n".toList ++ m.group 1 ++ "\x7d;".toList := by
  constructor
  · intro m hm
    obtain ⟨⟨q, htext⟩, -⟩ := emptyElse_parts hm
    simp [htext]
  · intro m hm
    simp
  · intro m hm
    obtain ⟨⟨q, htext⟩, -⟩ := emptyElse_parts hm
    have hnew : "\x7d\n".toList ++ m.group 1 ++ "\x7d;".toList =
        '}' :: (('\n' :: (m.group 1 ++ ['}'])) ++ [';']) := by simp
    rw [htext, hnew, endsInWord, endsInWord, getLast?_cons_concat, getLast?_cons_concat]
  · intro m l hm _ hd
    obtain ⟨⟨q, htext⟩, hindent⟩ := emptyElse_parts hm
    have h : Retyped ('}' :: (q ++ [';'])) ('}' :: (('\n' :: (m.group 1 ++ ['}'])) ++ [';'])) := by
      refine ⟨List.cons_ne_nil _ _, ?_, wordless_of_forall ?_, fun hflat => ?_⟩
      · rw [getLast?_cons_concat, getLast?_cons_concat]
      · have hgroup : ∀ z ∈ m.group 1, isSignChar z = false :=
          fun z hz => not_isSignChar_of_isIndent (hindent z hz)
        simp only [List.forall_mem_cons, List.forall_mem_append, List.cons_append]
        exact ⟨by decide, by decide, ⟨hgroup, by decide, List.forall_mem_nil _⟩, by decide,
          List.forall_mem_nil _⟩
      · exact absurd (hflat '\n' (by simp)) (by decide)
    have := h.denied (by decide) (parts_of_head fun c hc => ?_) (parts_of_getLast fun c hc => ?_)
      (by simpa using hd)
    · rw [htext]
      exact this
    · obtain rfl := Option.some.inj hc
      decide
    · rw [Option.mem_def, getLast?_cons_concat] at hc
      obtain rfl := Option.some.inj hc
      decide

end

end Signature

end SnippetGate
