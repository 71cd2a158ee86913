import SnippetGate.Proofs.Contract.LineEnds
import SnippetGate.Proofs.Pattern.Replaced
import SnippetGate.Proofs.Repair.Closure

/-!
# Closing tags are put in once

The missing closing tags go behind the head of the entry point's declaration, so the same
declaration is found when they stand there. The scan from it on then leaves no tag open, and there
is nothing to plan any more.
-/

namespace SnippetGate

open Pattern Contract

variable {a b h k l q r s t u v x y : Text} {m : Match}

/-! ### The head of the declaration -/

/-- The declaration of the entry point up to the parenthesis of its parameters. -/
def IsEntryHead (h : Text) : Prop :=
  ∃ x g b, h = "function".toList ++ (x :: (g ++ ("GeneratedLesson".toList ++ (b ++ ['('])))) ∧
    isBlank x = true ∧ (∀ z ∈ g, isBlank z = true) ∧ ∀ z ∈ b, isBlank z = true

theorem edge_function_iff : (u.getLast?.any isWord ≠ ("function".toList ++ r).head?.any isWord) ↔
    u.getLast?.any isWord = false := by
  have hword : ("function".toList ++ r).head?.any isWord = true := rfl
  rw [hword, ne_eq, Bool.not_eq_true]

/-- A declaration of the entry point begins where its head stands and a parenthesis follows. -/
theorem startsAt_entryDeclaration : Settings.standard.entryDeclaration.StartsAt u v ↔
    u.getLast?.any isWord = false ∧ ∃ h r, v = h ++ r ∧ IsEntryHead h ∧ ')' ∈ r := by
  have hbegins : Settings.standard.entryDeclaration.StartsAt u v ↔
      (entryWith (· != ')')).Begins u v := leads_iff_begins rfl
  rw [hbegins, begins_entryWith]
  constructor
  · rintro ⟨params, -, hedge, x, g, b, r, hx, hg, hb, rfl⟩
    exact ⟨edge_function_iff.mp hedge, _, params ++ ')' :: r, by simp,
      ⟨x, g, b, rfl, hx, hg, hb⟩, by simp⟩
  · rintro ⟨hu, _, r, rfl, ⟨x, g, b, rfl, hx, hg, hb⟩, hr⟩
    obtain ⟨params, r, rfl, hparams⟩ := List.eq_append_cons_of_mem hr
    refine ⟨params, Text.bne_of_notMem hparams, ?_, x, g, b, r, hx, hg, hb, by simp⟩
    rw [List.append_assoc]
    exact edge_function_iff.mpr hu

namespace IsEntryHead

theorem not_mem (hh : IsEntryHead h) : ')' ∉ h := by
  obtain ⟨x, g, b, rfl, hx, hg, hb⟩ := hh
  have hg' : ')' ∉ x :: g := not_mem_of_blanks (List.forall_mem_cons.mpr ⟨hx, hg⟩) (by decide)
  have hb' : ')' ∉ b := not_mem_of_blanks hb (by decide)
  simp only [List.mem_cons, not_or] at hg'
  simp [hg', hb']

theorem exists_cons (hh : IsEntryHead h) : ∃ r, h = 'f' :: r ∧ 'f' ∉ r := by
  obtain ⟨x, g, b, rfl, hx, hg, hb⟩ := hh
  refine ⟨"unction".toList ++ (x :: (g ++ ("GeneratedLesson".toList ++ (b ++ ['('])))), rfl, ?_⟩
  have hg' : 'f' ∉ x :: g := not_mem_of_blanks (List.forall_mem_cons.mpr ⟨hx, hg⟩) (by decide)
  have hb' : 'f' ∉ b := not_mem_of_blanks hb (by decide)
  simp only [List.mem_cons, not_or] at hg'
  simp [hg', hb']

theorem exists_concat (hh : IsEntryHead h) : ∃ r, h = r ++ ['('] := by
  obtain ⟨x, g, b, rfl, -⟩ := hh
  exact ⟨"function".toList ++ (x :: (g ++ ("GeneratedLesson".toList ++ b))), by simp⟩

/-- No head begins inside of another. -/
theorem prefix_of_later {h' e : Text} (hh : IsEntryHead h) (hh' : IsEntryHead h') (he : e ≠ [])
    (heq : h' ++ r = e ++ (h ++ s)) : ∃ d, e = h' ++ d := by
  rcases List.append_eq_append_iff.mp heq with ⟨d, hd, -⟩ | ⟨d, hd, hrest⟩
  · exact ⟨d, hd⟩
  cases d with
  | nil => exact ⟨[], by rw [hd]; simp⟩
  | cons z d =>
    obtain ⟨q, rfl, -⟩ := hh.exists_cons
    obtain ⟨q', rfl, honce⟩ := hh'.exists_cons
    obtain rfl : z = 'f' := (List.cons.inj hrest).1.symm
    obtain ⟨y, e, rfl⟩ := List.exists_cons_of_ne_nil he
    exact absurd ((List.cons.inj hd).2 ▸ List.mem_append_right e List.mem_cons_self) honce

/-- What stands before a line that begins with a parenthesis, or right before the parenthesis,
holds the whole head that begins before. -/
theorem exists_of_anchor (hh : IsEntryHead h) (ht : x ++ (s ++ ')' :: q) = a ++ (h ++ r))
    (hs : ∀ z ∈ s, isBlank z = true) (hle : a.length ≤ (x ++ s).length) :
    ∃ k, x = a ++ (h ++ k) := by
  obtain ⟨i, hi⟩ := hh.exists_concat
  -- the head ends before the parenthesis
  have hbefore : ∃ k, x ++ s = a ++ (h ++ k) := by
    obtain ⟨e, he⟩ : a <+: x ++ s :=
      List.prefix_of_prefix_length_le ⟨_, rfl⟩ ⟨')' :: q, by rw [← ht]; simp⟩ hle
    have hrest : e ++ ')' :: q = h ++ r := by
      rw [← List.append_assoc, ← he, List.append_assoc] at ht
      exact List.append_cancel_left ht
    obtain ⟨k, rfl, -⟩ := Text.exists_of_append_cons_eq hrest hh.not_mem
    exact ⟨k, he.symm⟩
  -- and before the blanks
  obtain ⟨k, hk⟩ := hbefore
  have hsplit : (a ++ i) ++ '(' :: k = x ++ s := by
    rw [hk, hi]
    simp
  have hparen : '(' ∉ s := not_mem_of_blanks hs (by decide)
  rcases List.append_eq_append_iff.mp hsplit with ⟨c, rfl, hc⟩ | ⟨c, -, rfl⟩
  · cases c with
    | nil =>
      rw [List.nil_append] at hc
      exact absurd (hc ▸ List.mem_cons_self) hparen
    | cons z c =>
      obtain rfl := (List.cons.inj hc).1
      exact ⟨c, by rw [hi]; simp⟩
  · exact absurd (List.mem_append_right c List.mem_cons_self) hparen

end IsEntryHead

/-- The declaration that is found first is still found first when something is put in behind its
head. -/
theorem search?_insert
    (hm : Settings.standard.entryDeclaration.search? (a ++ (h ++ (k ++ y))) = some m)
    (hstart : m.start = a.length) (hh : IsEntryHead h) (w : Text) :
    ∃ m', Settings.standard.entryDeclaration.search? (a ++ (h ++ (k ++ (w ++ y)))) = some m' ∧
      m'.start = a.length := by
  obtain ⟨a', v, he, hlen, hs⟩ := startsAt_of_search? hm
  obtain ⟨rfl, rfl⟩ := List.append_inj he (hstart.symm.trans hlen)
  obtain ⟨hedge, h', r, he', -, hr⟩ := startsAt_entryDeclaration.mp hs
  have hparen : ')' ∈ k ++ y := by
    have hmem : ')' ∈ h ++ (k ++ y) := he' ▸ List.mem_append_right h' hr
    exact (List.mem_append.mp hmem).resolve_left hh.not_mem
  have hnew : Settings.standard.entryDeclaration.StartsAt a (h ++ (k ++ (w ++ y))) := by
    refine startsAt_entryDeclaration.mpr ⟨hedge, h, _, rfl, hh, ?_⟩
    simp only [List.mem_append] at hparen ⊢
    exact hparen.imp_right .inr
  obtain ⟨m', hm', hle⟩ := hnew.exists_search?
  refine ⟨m', hm', hle.antisymm (not_lt.mp fun hlt => ?_)⟩
  -- one that begins before would have been there all along
  obtain ⟨u, v, he, hlen', hs'⟩ := startsAt_of_search? hm'
  obtain ⟨e, rfl⟩ : u <+: a :=
    List.prefix_of_prefix_length_le ⟨v, he.symm⟩ ⟨_, rfl⟩ (by omega)
  obtain ⟨hedge', h₁, r₁, rfl, hh₁, -⟩ := startsAt_entryDeclaration.mp hs'
  have hne : e ≠ [] := by
    rintro rfl
    simp [hlen'] at hlt
  obtain ⟨d, rfl⟩ := hh.prefix_of_later hh₁ hne (by simpa using he.symm)
  have hold : Settings.standard.entryDeclaration.StartsAt u (h₁ ++ (d ++ (h ++ (k ++ y)))) := by
    refine startsAt_entryDeclaration.mpr ⟨hedge', h₁, _, rfl, hh₁, ?_⟩
    exact List.mem_append_right d (List.mem_append_right h hparen)
  have := hold.start_le (by simpa using hm)
  omega

namespace Repair

theorem carryOut_split {p : ClosurePlan} : ∃ n w, carryOut t p = t.take n ++ (w ++ t.drop n) ∧
    n ≤ p.anchor ∧ ∀ z ∈ t.slice n p.anchor, isBlank z = true := by
  rw [carryOut]
  split
  · next hblank =>
    refine ⟨t.lineStart p.anchor, _, List.append_assoc .., ?_, List.all_eq_true.mp hblank⟩
    exact (Nat.sub_le ..).trans (List.length_take_le ..)
  · exact ⟨p.anchor, _, List.append_assoc .., le_rfl, by simp [Text.slice]⟩

/-- There is no plan for a text whose plan has been carried out. -/
theorem closurePlan?_carryOut {p : ClosurePlan} (hp : closurePlan? .standard t = some p)
    (hleaves : leavesNoTags (Scan.ofTextFrom (carryOut t p) p.region) = true) :
    closurePlan? .standard (carryOut t p) = none := by
  have hfits := fits_of_closurePlan? hp
  have hregion : ∃ m, Settings.standard.entryDeclaration.search? t = some m ∧
      m.start = p.region := by
    simp only [closurePlan?, Option.bind_eq_bind, Option.bind_eq_some_iff, Option.pure_def,
      Option.some.injEq] at hp
    obtain ⟨m, hm, -, -, -, -, -, -, -, -, -, -, rfl⟩ := hp
    exact ⟨m, hm, rfl⟩
  obtain ⟨m, hm, hstart⟩ := hregion
  obtain ⟨n, w, hcarry, hn, hblank⟩ := carryOut_split (t := t) (p := p)
  obtain ⟨q, hq⟩ := hfits.anchor
  obtain ⟨a, v, ht, hlen, hs⟩ := startsAt_of_search? hm
  obtain ⟨-, h, r, rfl, hh, -⟩ := startsAt_entryDeclaration.mp hs
  have hwhole : t.take n ++ (t.slice n p.anchor ++ ')' :: q) = t := by
    rw [← hq, Text.take_slice_drop t hn]
  have hle : a.length ≤ (t.take n ++ t.slice n p.anchor).length := by
    have hlong := congrArg List.length hwhole
    have hrest := congrArg List.length hq
    simp only [List.length_append, List.length_cons, List.length_drop] at hlong hrest ⊢
    have := hfits.le
    omega
  obtain ⟨k, hk⟩ := hh.exists_of_anchor (hwhole.trans ht) hblank hle
  obtain ⟨m', hm', hstart'⟩ := search?_insert (a := a) (h := h) (k := k) (y := t.drop n)
    (by rw [← hm, ← List.append_assoc, ← List.append_assoc, List.append_assoc a, ← hk,
      List.take_append_drop]) hlen hh w
  have hcandidate : a ++ (h ++ (k ++ (w ++ t.drop n))) = carryOut t p := by
    rw [hcarry, hk]
    simp
  rw [hcandidate] at hm'
  have htags : (Scan.ofTextFrom (carryOut t p) m'.start).unclosedTags = [] := by
    rw [hstart', ← hlen, hstart]
    exact List.isEmpty_iff.mp (Bool.and_eq_true_iff.mp hleaves).1
  simp [closurePlan?, hm', htags]

/-- Closing tags are put in at most once. -/
theorem withClosers_idem (t : Text) :
    withClosers .standard (withClosers .standard t) = withClosers .standard t := by
  cases hp : closurePlan? .standard t with
  | none => simp [withClosers, hp]
  | some p =>
    by_cases hleaves : leavesNoTags (Scan.ofTextFrom (carryOut t p) p.region) = true
    · have hnone := closurePlan?_carryOut hp hleaves
      simp [withClosers, hp, hleaves, hnone]
    · simp [withClosers, hp, hleaves]

end Repair

end SnippetGate
