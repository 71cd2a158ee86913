import SnippetGate.Proofs.Repair.Alias
import SnippetGate.Proofs.Repair.EntryHead

/-!
# An adopted entry point

Adopting a component puts the declaration of the entry point in the place of the component's, and
mount calls of the entry point in the place of the component's. Each of these texts takes the place
of a phrase, and two invariants are kept wherever that happens: no declaration of the entry point
has parameters, and there is one.
-/

namespace SnippetGate

open Pattern Contract

variable {a b c d k l n q r s t u v w x y : Text} {m : Match}

/-! ### Invariants of replacing -/

namespace Pattern

variable {p : Pattern} {f : Match → Text} {v' : Text} {P : Text → Prop}

/-- What is kept when one piece is replaced is kept when all are. -/
theorem Replaced.preserves (h : Replaced p f u v v')
    (hstep : ∀ {u m v}, p.Takes u m v → ∀ l r, P (l ++ (m.text ++ r)) → P (l ++ (f m ++ r)))
    (hv : P (l ++ v)) : P (l ++ v') := by
  induction h generalizing l with
  | rest => exact hv
  | @piece u a v v' m _ htakes _ ih =>
    have hnew : P ((l ++ a) ++ (f m ++ v)) := hstep htakes (l ++ a) v (by simpa using hv)
    have := ih (l := l ++ (a ++ f m)) (by simpa using hnew)
    simpa using this

theorem replaceAll_preserves (hp : p.NeverEmpty)
    (hstep : ∀ {u m v}, p.Takes u m v → ∀ l r, P (l ++ (m.text ++ r)) → P (l ++ (f m ++ r)))
    (ht : P t) : P (p.replaceAll f t) :=
  (replaced_replaceAll hp f t).preserves hstep (l := []) ht

theorem findAll_ne_nil (h : p.occursIn t = true) : p.findAll t ≠ [] := by
  obtain ⟨m, hm⟩ := Option.isSome_iff_exists.mp h
  have hfirst : p.searchFrom? (.ofText t) = some m := hm
  rw [findAll, findUpTo, hfirst]
  exact List.cons_ne_nil _ _

theorem replaceFirst_preserves
    (hstep : ∀ {u m v}, p.Takes u m v → ∀ l r, P (l ++ (m.text ++ r)) → P (l ++ (f m ++ r)))
    (ht : P t) : P (p.replaceFirst f t) := by
  rcases replaceFirst_cases p f t with ⟨-, he⟩ | ⟨a, m, v, rfl, htakes, he⟩
  · rwa [he]
  · rw [he]
    exact hstep htakes a v ht

end Pattern

/-! ### Templates without escapes -/

namespace Template

theorem readFrom_eq_map (h : '\\' ∉ t) (groups pos : Nat) :
    readFrom groups 0 pos t = .ok (t.map .literal) := by
  induction t generalizing pos with
  | nil => rfl
  | cons x t ih =>
    simp only [List.mem_cons, not_or] at h
    rw [readFrom, if_neg (Ne.symm h.1), ih h.2]
    rfl

theorem parse_eq_map (h : '\\' ∉ t) (groups : Nat) :
    parse groups t = .ok (t.map .literal) := by
  rw [parse, readFrom_eq_map h]

theorem fill_map_literal (t : Text) : fill (t.map .literal) = fun _ => t := by
  funext m
  induction t with
  | nil => rfl
  | cons x t ih => exact congrArg (x :: ·) ih

end Template

namespace Repair

/-! ### Declarations without parameters -/

/-- The declaration of the entry point without parameters. -/
def plainEntry : Text := "function GeneratedLesson".toList ++ ['(', ')']

theorem plainEntry_append (r : Text) :
    plainEntry ++ r = "function GeneratedLesson".toList ++ '(' :: ')' :: r :=
  List.append_assoc ..

/-- The entry point is declared without parameters. -/
def DeclaresPlain (t : Text) : Prop :=
  ∃ a v, t = a ++ (plainEntry ++ v) ∧ a.getLast?.any isWord = false

/-- The entry point is not declared with parameters. -/
def DeclaresOnlyPlain (t : Text) : Prop :=
  ∀ a v, t = a ++ v → Settings.standard.entryDeclaration.StartsAt a v → plainEntry <+: v

theorem DeclaresPlain.occursIn (h : DeclaresPlain t) :
    Settings.standard.entryDeclaration.occursIn t = true := by
  obtain ⟨a, v, rfl, ha⟩ := h
  refine occursIn_iff_startsAt.mpr ⟨a, _, rfl, startsAt_entryDeclaration.mpr ⟨ha, ?_⟩⟩
  refine ⟨"function GeneratedLesson".toList ++ ['('], ')' :: v, ?_, ?_, List.mem_cons_self⟩
  · rw [plainEntry_append, List.append_assoc, List.singleton_append]
  · exact ⟨' ', [], [], by decide, rfl, nofun, nofun⟩

theorem declaresOnlyPlain_of_occursIn
    (h : Settings.standard.entryDeclaration.occursIn t = false) : DeclaresOnlyPlain t := by
  intro a v he hs
  rw [occursIn_iff_startsAt.mpr ⟨a, v, he, hs⟩] at h
  cases h

/-- The parameters that are found are none. -/
theorem DeclaresOnlyPlain.group_eq_nil (h : DeclaresOnlyPlain t)
    (hm : m ∈ Settings.standard.entryDeclaration.findAll t) : m.group 1 = [] := by
  obtain ⟨u, v, rfl, htakes⟩ := exists_takes_of_mem_findAll hm
  obtain ⟨r, hr⟩ := h u _ rfl htakes.startsAt
  have hedge := (startsAt_entryDeclaration.mp htakes.startsAt).1
  refine (group_of_declares (finds_of_mem_findAll hm) htakes.start.symm List.not_mem_nil ?_).1
  have hname : plainEntry =
      "function".toList ++ (' ' :: ("GeneratedLesson".toList ++ ['(', ')'])) := by decide
  rw [← hr, hname, List.append_assoc]
  exact ⟨edge_function_iff.mpr hedge, ' ', [], [], r, rfl, nofun, nofun, by simp⟩

end Repair

namespace IsEntryHead

variable {h e : Text}

/-- A head that parameters do not follow. -/
theorem prefix_iff (hh : IsEntryHead h) : Repair.plainEntry <+: h ++ r ↔
    h = "function GeneratedLesson".toList ++ ['('] ∧ ∃ s, r = ')' :: s := by
  constructor
  · rintro ⟨s, hs⟩
    obtain ⟨x, g, b, rfl, hx, hg, hb⟩ := hh
    have hparen {t : Text} (ht : ∀ z ∈ t, isBlank z = true) : '(' ∉ t :=
      not_mem_of_blanks ht (by decide)
    have hsplit : "function GeneratedLesson".toList ++ '(' :: (')' :: s) =
        ("function".toList ++ ((x :: g) ++ ("GeneratedLesson".toList ++ b))) ++ '(' :: r := by
      rw [← Repair.plainEntry_append, hs]
      simp only [List.append_assoc, List.cons_append, List.nil_append]
    have hfirst : '(' ∉ "function".toList ++ ((x :: g) ++ ("GeneratedLesson".toList ++ b)) := by
      simp only [List.mem_append, not_or]
      exact ⟨by decide, hparen (List.forall_mem_cons.mpr ⟨hx, hg⟩), by decide, hparen hb⟩
    obtain ⟨hname, hrest⟩ := Text.eq_of_first_of_notMem (by decide) hfirst hsplit
    refine ⟨?_, s, hrest.symm⟩
    rw [hname]
    simp only [List.append_assoc, List.cons_append]
  · rintro ⟨rfl, s, rfl⟩
    exact ⟨s, by rw [Repair.plainEntry_append, List.append_assoc, List.singleton_append]⟩

/-- A function does not begin behind the first character of a head. -/
theorem ne_function (hh : IsEntryHead (k ++ e)) (hk : k ≠ []) (he : e ≠ []) :
    e ++ s ≠ 'f' :: r := by
  obtain ⟨z, k, rfl⟩ := List.exists_cons_of_ne_nil hk
  obtain ⟨y, e, rfl⟩ := List.exists_cons_of_ne_nil he
  intro heq
  obtain ⟨rfl, -⟩ := List.cons.inj heq
  obtain ⟨q, hq, honce⟩ := hh.exists_cons
  exact honce ((List.cons.inj hq).2 ▸ List.mem_append_right k List.mem_cons_self)

/-- A mount call does not begin there either: the head holds its first letter once, and goes on
differently. -/
theorem ne_mount (hh : IsEntryHead (k ++ e)) (hk : k ≠ []) (he : e ≠ []) :
    e ++ s ≠ 'r' :: 'e' :: r := by
  obtain ⟨z, k, rfl⟩ := List.exists_cons_of_ne_nil hk
  obtain ⟨y, e, rfl⟩ := List.exists_cons_of_ne_nil he
  intro heq
  obtain ⟨rfl, hrest⟩ := List.cons.inj heq
  obtain ⟨x, g, b, hq, hx, hg, hb⟩ := hh
  have hblank {t : Text} (ht : ∀ z ∈ t, isBlank z = true) : 'r' ∉ t :=
    not_mem_of_blanks ht (by decide)
  have hsplit : k ++ 'r' :: e = ("unction".toList ++ ((x :: g) ++ "Gene".toList)) ++
      ('r' :: ("atedLesson".toList ++ (b ++ ['(']))) := by
    simpa using congrArg List.tail hq
  have hbefore : 'r' ∉ "unction".toList ++ ((x :: g) ++ "Gene".toList) := by
    simp only [List.mem_append, not_or]
    exact ⟨by decide, hblank (List.forall_mem_cons.mpr ⟨hx, hg⟩), by decide⟩
  have hbehind : 'r' ∉ "atedLesson".toList ++ (b ++ ['(']) := by
    simp only [List.mem_append, not_or]
    exact ⟨by decide, hblank hb, by decide⟩
  obtain ⟨j, -, hj⟩ := Text.exists_of_append_cons_eq hsplit hbefore
  cases j with
  | nil =>
    obtain rfl := (List.cons.inj hj).2
    exact absurd (List.cons.inj hrest).1 (by decide)
  | cons y j => exact hbehind ((List.cons.inj hj).2 ▸ List.mem_append_right j List.mem_cons_self)

end IsEntryHead

namespace Repair

/-! ### Texts in the place of phrases -/

/-- A text that is put in the place of a phrase. It begins like a function or like a mount call, and
a function in it is the entry point without parameters. -/
structure IsForm (y : Text) : Prop where
  begins : (∃ z, y = 'f' :: z) ∨ ∃ z, y = 'r' :: 'e' :: z
  inner : ∀ d ∈ y.tails, d.head? = some 'f' → plainEntry <+: d

/-- The mount call of the entry point. -/
def plainMount : Text := "render(<GeneratedLesson />)".toList

theorem isForm_plainEntry : IsForm plainEntry := ⟨.inl ⟨_, rfl⟩, by decide⟩

theorem isForm_plainOpening : IsForm (plainEntry ++ " \x7b".toList) := ⟨.inl ⟨_, rfl⟩, by decide⟩

theorem isForm_plainMount : IsForm plainMount := ⟨.inr ⟨_, rfl⟩, by decide⟩

theorem IsPhrase.ne_nil (hx : IsPhrase x) : x ≠ [] := by
  rintro rfl
  cases hx.head

theorem IsPhrase.ne_cons (hx : IsPhrase x) : x ++ r ≠ ')' :: s := by
  intro he
  obtain ⟨z, x, rfl⟩ := List.exists_cons_of_ne_nil hx.ne_nil
  obtain ⟨rfl, -⟩ := List.cons.inj he
  have hword : isWord ')' = true := hx.head
  exact absurd hword (by decide)

/-- Behind a text that does not end in a word no word goes on where none went on before. -/
theorem edge_swap (hx : x ≠ []) (hlast : x.getLast?.any isWord = false)
    (h : (l ++ (y ++ c)).getLast?.any isWord = false) :
    (l ++ (x ++ c)).getLast?.any isWord = false := by
  by_cases hc : c = []
  · rwa [hc, List.append_nil, List.getLast?_append_of_ne_nil l hx]
  · rw [← List.append_assoc, List.getLast?_append_of_ne_nil _ hc] at h ⊢
    exact h

/-- No declaration with parameters comes about when such a text takes the place of a phrase. -/
theorem DeclaresOnlyPlain.swap (h : DeclaresOnlyPlain (l ++ (x ++ r))) (hx : IsPhrase x)
    (hy : IsForm y) : DeclaresOnlyPlain (l ++ (y ++ r)) := by
  intro a v he hs
  obtain ⟨hedge, k, s, rfl, hk, hparen⟩ := startsAt_entryDeclaration.mp hs
  rcases Text.cases_of_append_eq he with ⟨e, hne, rfl, hv⟩ | ⟨c, d, hd, rfl, rfl, hv⟩ |
    ⟨c, rfl, rfl⟩
  · -- a head before the phrase has been there all along
    have hbefore (e' : Text) (he' : e = k ++ e') : plainEntry <+: k ++ (e' ++ (y ++ r)) := by
      have hold : Settings.standard.entryDeclaration.StartsAt a (k ++ (e' ++ (x ++ r))) := by
        refine startsAt_entryDeclaration.mpr ⟨hedge, k, _, rfl, hk, ?_⟩
        exact List.mem_append_right e' (List.mem_append_left r hx.paren)
      obtain ⟨hname, s', hs'⟩ := hk.prefix_iff.mp (h a _ (by simp [he']) hold)
      refine hk.prefix_iff.mpr ⟨hname, ?_⟩
      cases e' with
      | nil => exact absurd hs' hx.ne_cons
      | cons z e' => exact ⟨_, by rw [(List.cons.inj hs').1]; rfl⟩
    rw [hv]
    rcases List.append_eq_append_iff.mp hv with ⟨e', he', -⟩ | ⟨k', rfl, hrest⟩
    · rw [he', List.append_assoc]
      exact hbefore e' he'
    · by_cases hk' : k' = []
      · subst hk'
        simpa using hbefore [] (by simp)
      · -- it does not go on into the new text
        rcases hy.begins with ⟨z, rfl⟩ | ⟨z, rfl⟩
        · exact absurd hrest.symm (hk.ne_function hne hk')
        · exact absurd hrest.symm (hk.ne_mount hne hk')
  · -- inside of the new text
    rw [hv]
    obtain ⟨k, rfl, -⟩ := hk.exists_cons
    obtain ⟨z, d, rfl⟩ := List.exists_cons_of_ne_nil hd
    obtain ⟨rfl, -⟩ := List.cons.inj hv
    exact (hy.inner _ ((List.mem_tails ..).mpr ⟨c, rfl⟩) rfl).trans (List.prefix_append _ r)
  · -- behind it
    refine h (l ++ (x ++ c)) _ (by simp) (startsAt_entryDeclaration.mpr ⟨?_, k, s, rfl, hk, hparen⟩)
    exact edge_swap hx.ne_nil hx.last hedge

/-! ### Mount calls -/

theorem isMountOf_plainMount : IsMountOf "GeneratedLesson".toList plainMount :=
  ⟨[], [], [' '], [], by decide, rfl⟩

/-- Whether a character can stand in a name or beside it. -/
def isNameOrBlank (z : Char) : Bool := isNameChar z || isBlank z

/-- A place before the first sign of a text, if only that sign comes next, or behind it. -/
theorem cases_of_sign {e : Text} {z y : Char} (h : e ++ z :: w = c ++ d)
    (he : ∀ z ∈ e, isNameOrBlank z = true) (hz : isNameOrBlank z = false)
    (hq : ∀ z ∈ q, isNameOrBlank z = true) (hy : isNameOrBlank y = false)
    (hd : d ++ r = q ++ y :: s) : (z = y ∧ e = c ++ q) ∨ ∃ k, c = e ++ z :: k ∧ w = k ++ d := by
  rcases Text.cases_of_append_cons_eq h with ⟨k, rfl, rfl⟩ | hbehind
  · have hk : ∀ z ∈ k, isNameOrBlank z = true := fun z hz => he z (List.mem_append_right c hz)
    have hsplit : k ++ z :: (w ++ r) = q ++ y :: s := by simpa using hd
    obtain ⟨rfl, rfl, -⟩ := Text.eq_of_first_of_other hk hq hz hy hsplit
    exact .inl ⟨rfl, rfl⟩
  · exact .inr hbehind

/-- The only place in a mount call from which a name goes on to an opening parenthesis is the
beginning. -/
theorem IsMountOf.eq_of_split (hw : IsMountOf n (c ++ d)) (hn : ∀ z ∈ n, isNameChar z = true)
    (hd : d ≠ []) (hq : ∀ z ∈ q, isNameOrBlank z = true) (he : d ++ r = q ++ '(' :: s) :
    "render".toList = c ++ q := by
  obtain ⟨b₁, b₂, b₃, b₄, hb, hw⟩ := hw
  simp only [List.forall_mem_append] at hb
  have hblank {b : Text} (hb : ∀ z ∈ b, isBlank z = true) : ∀ z ∈ b, isNameOrBlank z = true :=
    fun z hz => by rw [isNameOrBlank, hb z hz, Bool.or_true]
  have hname : ∀ z ∈ n, isNameOrBlank z = true :=
    fun z hz => by rw [isNameOrBlank, hn z hz, Bool.true_or]
  have hsplit : "render".toList ++ '(' :: (b₁ ++ '<' :: ((b₂ ++ (n ++ b₃)) ++ '/' ::
      ([] ++ '>' :: (b₄ ++ [')'])))) = c ++ d := by simpa using hw.symm
  have hsign {e w c : Text} {z : Char} (h : e ++ z :: w = c ++ d)
      (he' : ∀ z ∈ e, isNameOrBlank z = true) (hz : isNameOrBlank z = false) (hne : z ≠ '(') :
      ∃ k, w = k ++ d :=
    ((cases_of_sign h he' hz hq (by decide) he).resolve_left fun h => hne h.1).imp fun _ h => h.2
  rcases cases_of_sign hsplit (by decide) (by decide) hq (by decide) he with ⟨-, h⟩ | ⟨k, -, h⟩
  · exact h
  -- behind the parenthesis another sign comes first, wherever the place is
  exfalso
  obtain ⟨k, h⟩ := hsign h (hblank hb.1) (by decide) (by decide)
  have hbefore : ∀ z ∈ b₂ ++ (n ++ b₃), isNameOrBlank z = true := by
    simp only [List.forall_mem_append]
    exact ⟨hblank hb.2.1, hname, hblank hb.2.2.1⟩
  obtain ⟨k, h⟩ := hsign h hbefore (by decide) (by decide)
  obtain ⟨k, h⟩ := hsign h nofun (by decide) (by decide)
  obtain ⟨k, h⟩ := hsign h (hblank hb.2.2.2) (by decide) (by decide)
  exact hd (List.append_eq_nil_iff.mp h.symm).2

/-- Mount calls that begin at one place are of one component. -/
theorem IsMountOf.eq_of_append {n' w' : Text} (hw : IsMountOf n w) (hw' : IsMountOf n' w')
    (hn : IsComponentName n) (hn' : IsComponentName n') (he : w ++ r = w' ++ s) : n = n' := by
  obtain ⟨b₁, b₂, b₃, b₄, hb, rfl⟩ := hw
  obtain ⟨b₁', b₂', b₃', b₄', hb', rfl⟩ := hw'
  simp only [List.forall_mem_append] at hb hb'
  have hopen : b₁ ++ '<' :: (b₂ ++ (n ++ (b₃ ++ '/' :: '>' :: (b₄ ++ ')' :: r)))) =
      b₁' ++ '<' :: (b₂' ++ (n' ++ (b₃' ++ '/' :: '>' :: (b₄' ++ ')' :: s)))) := by
    simpa using he
  obtain ⟨-, -, hname⟩ := Text.eq_of_first_of_other hb.1 hb'.1 (by decide) (by decide) hopen
  -- both names begin at the first character that is not a blank
  obtain ⟨z, i, rfl, hz, hi⟩ := hn
  obtain ⟨z', i', rfl, hz', hi'⟩ := hn'
  have hink {z : Char} (hz : z.isUpper = true) : isBlank z = false :=
    not_isBlank_of_isNameChar (isNameChar_of_isUpper hz)
  obtain ⟨-, rfl, htail⟩ :=
    Text.eq_of_first_of_other hb.2.1 hb'.2.1 (hink hz) (hink hz') hname
  -- and end before the first that cannot stand in a name
  have hend {b : Text} (hb : ∀ z ∈ b, isBlank z = true) (t : Text) :
      ∃ y t', b ++ '/' :: t = y :: t' ∧ isNameChar y = false := by
    cases b with
    | nil => exact ⟨_, _, rfl, by decide⟩
    | cons y b => exact ⟨_, _, rfl, not_isNameChar_of_isBlank (hb y List.mem_cons_self)⟩
  obtain ⟨y, t, hyt, hy⟩ := hend hb.2.2.1 ('>' :: (b₄ ++ ')' :: r))
  obtain ⟨y', t', hyt', hy'⟩ := hend hb'.2.2.1 ('>' :: (b₄' ++ ')' :: s))
  rw [hyt, hyt'] at htail
  rw [(Text.eq_of_first_of_other hi hi' hy hy' htail).1]

/-- A declaration without parameters is still there when a mount call has been replaced. -/
theorem DeclaresPlain.swap (h : DeclaresPlain (l ++ (w ++ r))) (hw : IsMountOf n w)
    (hn : ∀ z ∈ n, isNameChar z = true) : DeclaresPlain (l ++ (plainMount ++ r)) := by
  obtain ⟨a, v, he, ha⟩ := h
  rcases Text.cases_of_append_eq he with ⟨e, -, rfl, hv⟩ | ⟨c, d, hd, rfl, rfl, hv⟩ | ⟨c, rfl, rfl⟩
  · rcases List.append_eq_append_iff.mp hv with ⟨e', rfl, -⟩ | ⟨d, hd, hrest⟩
    · exact ⟨a, e' ++ (plainMount ++ r), by simp, ha⟩
    · by_cases hnil : d = []
      · subst hnil
        rw [List.append_nil] at hd
        exact ⟨a, plainMount ++ r, by rw [hd, List.append_assoc], ha⟩
      · -- the declaration does not go on into the mount call
        exfalso
        obtain ⟨q, rfl⟩ := hw.exists_cons
        have hclash : ∀ d ∈ plainEntry.tails, d ≠ [] → Text.Clash d "render(".toList := by decide
        refine (hclash d ((List.mem_tails ..).mpr ⟨e, hd.symm⟩) hnil).append_ne v (q ++ r) ?_
        rw [← hrest, List.append_assoc]
  · -- nor does it begin in one
    exfalso
    have hname : d ++ r = "function GeneratedLesson".toList ++ '(' :: (')' :: v) := hv.symm
    have := congrArg List.length (hw.eq_of_split hn hd (by decide) hname)
    simp at this
  · exact ⟨l ++ (plainMount ++ c), v, by simp, edge_swap (by decide) rfl ha⟩

/-- A mount call that begins before the new text of another ends before it. -/
theorem IsMountOf.exists_of_before (hw : IsMountOf n w) (hn : ∀ z ∈ n, isNameChar z = true)
    (hk : k ≠ []) (he : k ++ (plainMount ++ v) = w ++ r) : ∃ e, k = w ++ e := by
  rcases List.append_eq_append_iff.mp he with ⟨e, rfl, hrest⟩ | ⟨e, hke, -⟩
  · by_cases hnil : e = []
    · subst hnil
      exact ⟨[], by simp⟩
    · have hbegin := hw.eq_of_split hn hnil (q := "render".toList) (by decide) hrest.symm
      exact absurd (by simpa using hbegin) hk
  · exact ⟨e, hke⟩

/-- No mount call of another component begins inside of the new text. -/
theorem IsMountOf.ne_inside (hw : IsMountOf n w) (hn : IsComponentName n)
    (hne : n ≠ "GeneratedLesson".toList) (hf : plainMount = a ++ b) (hb : b ≠ []) :
    b ++ v ≠ w ++ r := by
  intro he
  obtain ⟨q, hq⟩ : ∃ q, w = "render".toList ++ '(' :: q := by
    obtain ⟨b₁, b₂, b₃, b₄, -, rfl⟩ := hw
    exact ⟨_, rfl⟩
  have hsplit : b ++ v = "render".toList ++ '(' :: (q ++ r) := by rw [he, hq]; simp
  have hplain : IsMountOf "GeneratedLesson".toList (a ++ b) := hf ▸ isMountOf_plainMount
  obtain rfl : a = [] := by simpa using hplain.eq_of_split (by decide) hb (by decide) hsplit
  refine hne (hw.eq_of_append hplain hn ?_ he.symm)
  exact ⟨'G', "eneratedLesson".toList, rfl, by decide, by decide⟩

/-- When all mount calls of a component are replaced none is left. -/
theorem occursIn_mountOf (hn : IsComponentName n) (hne : n ≠ "GeneratedLesson".toList) (t : Text) :
    (Settings.standard.mountOf (text n)).occursIn
      ((Settings.standard.mountOf (text n)).replaceAll (fun _ => plainMount) t) = false := by
  refine occursIn_replaceAll (E := fun l u => l.getLast? = u.getLast?) (neverEmpty_mountOf n) rfl
    ⟨?_, ?_, ?_, ?_, ?_⟩
  · intro l u s he
    exact Text.getLast?_append_congr s he
  · intro l u v m _ h
    obtain ⟨w, htext⟩ := (isMountOf_of_takes h).exists_concat
    rw [htext, ← List.append_assoc, List.getLast?_concat]
    exact List.getLast?_append_of_ne_nil l (by decide)
  · intro l u v he hgap h
    rw [startsAt_mountOf] at hgap h
    exact hgap (h.imp_left fun hl => by rwa [Fresh, ← he])
  · intro l u k v v' m he hk hno _ _ h
    rw [startsAt_mountOf] at hno h
    obtain ⟨hfresh, w, r, hsplit, hw⟩ := h
    obtain ⟨e, rfl⟩ := hw.exists_of_before hn.forall_isNameChar hk hsplit
    exact hno ⟨by rwa [Fresh, ← he], w, _, List.append_assoc .., hw⟩
  · intro l u v v' a b m _ _ _ hf hb h
    obtain ⟨-, w, r, hsplit, hw⟩ := startsAt_mountOf.mp h
    exact hw.ne_inside hn hne hf hb hsplit

/-! ### The adopted component -/

/-- The text in which a component is declared as the entry point. -/
def declaredAsEntry (n t : Text) : Text :=
  (functionNamed (text n)).replaceFirst (fun _ => plainEntry)
    ((arrowNamed n).replaceFirst (fun _ => plainEntry ++ " \x7b".toList) t)

theorem adopt_standard (n t : Text) : adopt .standard n t = .ok
    (if n = "GeneratedLesson".toList then declaredAsEntry n t
      else (Settings.standard.mountOf (text n)).replaceAll (fun _ => plainMount)
        (declaredAsEntry n t)) := by
  have hentry : entryTemplate .standard = plainEntry := by decide
  have hmount : Settings.mountExpression .standard = plainMount := by decide
  have hname : Settings.standard.entryName = "GeneratedLesson".toList := rfl
  rw [adopt, hentry, hmount, hname, Template.parse_eq_map (by decide),
    Template.parse_eq_map (by decide), Template.parse_eq_map (by decide)]
  simp only [bind, Except.bind, pure, Except.pure, Template.fill_map_literal]
  split <;> rfl

/-- The component is declared as the entry point if it was declared at all. The first form is looked
for first, and the second in the text that has been rewritten already. -/
theorem declaresPlain_declaredAsEntry (h : isDeclared t n = true) :
    DeclaresPlain (declaredAsEntry n t) := by
  rw [declaredAsEntry]
  rcases replaceFirst_cases (functionNamed (text n)) (fun _ => plainEntry)
    ((arrowNamed n).replaceFirst (fun _ => plainEntry ++ " \x7b".toList) t) with
    ⟨hnone, he⟩ | ⟨a, m, v, -, htakes, he⟩
  · rw [he]
    rcases replaceFirst_cases (arrowNamed n) (fun _ => plainEntry ++ " \x7b".toList) t with
      ⟨harrow, he'⟩ | ⟨a, m, v, rfl, htakes, he'⟩
    · rw [he'] at hnone
      rw [isDeclared, hnone, harrow] at h
      cases h
    · rw [he']
      have hedge := (isPhrase_of_arrowNamed (htakes.fits (isExplicit_arrowNamed n))).1
      exact ⟨a, " \x7b".toList ++ v, by rw [List.append_assoc], hedge⟩
  · rw [he]
    exact ⟨a, v, rfl, (isPhrase_of_functionNamed (htakes.fits (isExplicit_functionNamed n))).1⟩

theorem declaresOnlyPlain_declaredAsEntry (h : DeclaresOnlyPlain t) :
    DeclaresOnlyPlain (declaredAsEntry n t) := by
  refine replaceFirst_preserves (fun htakes l r ht => ?_) (replaceFirst_preserves
    (fun htakes l r ht => ?_) h)
  · exact ht.swap (isPhrase_of_functionNamed (htakes.fits (isExplicit_functionNamed n))).2
      isForm_plainEntry
  · exact ht.swap (isPhrase_of_arrowNamed (htakes.fits (isExplicit_arrowNamed n))).2
      isForm_plainOpening

/-- What adopting a component that is declared makes of a text without an entry point. -/
theorem exists_adopt (hn : IsComponentName n) (hdeclared : isDeclared t n = true)
    (hentry : DeclaresOnlyPlain t) :
    ∃ u, adopt .standard n t = .ok u ∧ DeclaresPlain u ∧ DeclaresOnlyPlain u ∧
      (n ≠ "GeneratedLesson".toList →
        (Settings.standard.mountOf (text n)).occursIn u = false) := by
  have hplain := declaresPlain_declaredAsEntry hdeclared
  have honly := declaresOnlyPlain_declaredAsEntry (n := n) hentry
  rw [adopt_standard]
  by_cases hname : n = "GeneratedLesson".toList
  · rw [if_pos hname]
    exact ⟨_, rfl, hplain, honly, fun hne => absurd hname hne⟩
  · rw [if_neg hname]
    refine ⟨_, rfl, ?_, ?_, fun _ => occursIn_mountOf hn hname _⟩
    · refine replaceAll_preserves (neverEmpty_mountOf n) (fun htakes l r ht => ?_) hplain
      exact ht.swap (isMountOf_of_takes htakes) hn.forall_isNameChar
    · refine replaceAll_preserves (neverEmpty_mountOf n) (fun htakes l r ht => ?_) honly
      exact ht.swap (isPhrase_of_isMountOf (isMountOf_of_takes htakes)) isForm_plainMount

/-- Nothing is adopted where the entry point is declared. -/
theorem adopted_eq_self (h : Settings.standard.entryDeclaration.occursIn t = true) :
    adopted .standard t = .ok t := by
  have hnone : alias? .standard t = none := by rw [alias?, if_pos h]
  rw [adopted, hnone]

/-- Adopting an entry point establishes it: it is declared and has no parameters, the component is
not mounted under its own name any more, and there is nothing left to adopt. -/
theorem adopted_establishes (t : Text) : match alias? .standard t with
    | none => adopted .standard t = .ok t
    | some n => ∃ u, adopted .standard t = .ok u ∧
        (Settings.standard.entryDeclaration.findAll u ≠ [] ∧
          ∀ m ∈ Settings.standard.entryDeclaration.findAll u, m.group 1 = []) ∧
        (n ≠ Settings.standard.entryName →
          (Settings.standard.mountOf (text n)).occursIn u = false) ∧
        adopted .standard u = .ok u := by
  cases halias : alias? .standard t with
  | none => rw [adopted, halias]
  | some n =>
    obtain ⟨hentry, hn, hdeclared⟩ := declared_of_alias? halias
    obtain ⟨u, hadopt, hplain, honly, hmount⟩ :=
      exists_adopt hn hdeclared (declaresOnlyPlain_of_occursIn hentry)
    refine ⟨u, ?_, ⟨findAll_ne_nil hplain.occursIn, fun m hm => honly.group_eq_nil hm⟩, hmount,
      adopted_eq_self hplain.occursIn⟩
    rw [adopted, halias]
    exact hadopt

example : adopted .standard "const App = () => \x7breturn 1\x7d;render( <App/> )".toList = .ok
    "function GeneratedLesson() \x7breturn 1\x7d;render(<GeneratedLesson />)".toList := by
  decide +kernel

end Repair

end SnippetGate
