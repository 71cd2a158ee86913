import SnippetGate.Contract.Check
import SnippetGate.Proofs.Denylist.Swap
import SnippetGate.Proofs.Pattern.Last

/-!
# Mount calls

The text of a mount call, and where such a text can stand: none begins inside of another, so the
last one that is found is the last there is.
-/

namespace SnippetGate

open Pattern

/-! ### The text of a mount call -/

/-- The text of a mount call up to its parenthesis. -/
def IsMount (w : Text) : Prop :=
  ∃ b₁ b₂ b₃ b₄ : Text, (∀ z ∈ b₁ ++ (b₂ ++ (b₃ ++ b₄)), isBlank z = true) ∧
    w = "render(".toList ++ (b₁ ++ (['<'] ++ (b₂ ++ ("GeneratedLesson".toList ++ (b₃ ++
      ("/>".toList ++ (b₄ ++ [')'])))))))

/-- What comes before the `r` of a mount call goes on to it, and its element is not closed by a
tag. -/
def GoesOn (x y : Char) : Prop := (y = 'r' → Sign.afterMember x = true) ∧ ¬ (x = '<' ∧ y = '/')

instance : DecidableRel GoesOn := fun x y =>
  inferInstanceAs (Decidable ((y = 'r' → Sign.afterMember x = true) ∧ ¬ (x = '<' ∧ y = '/')))

variable {w t p q : Text}

theorem goesOn_of_isBlank {x y : Char} (hy : isBlank y = true) : GoesOn x y := by
  refine ⟨?_, ?_⟩
  · rintro rfl
    exact absurd hy (by decide)
  · rintro ⟨-, rfl⟩
    exact absurd hy (by decide)

theorem isChain_blanks_append {b v : Text} (hb : ∀ z ∈ b, isBlank z = true)
    (hv : v.IsChain GoesOn) (hr : v.head? ≠ some 'r') : (b ++ v).IsChain GoesOn := by
  induction b with
  | nil => exact hv
  | cons x b ih =>
    obtain ⟨hx, hb⟩ := List.forall_mem_cons.mp hb
    rw [List.cons_append, List.isChain_cons]
    refine ⟨fun y hy => ?_, ih hb⟩
    cases b with
    | nil =>
      refine ⟨?_, ?_⟩
      · rintro rfl
        exact absurd hy hr
      · rintro ⟨rfl, -⟩
        exact absurd hx (by decide)
    | cons z b =>
      obtain rfl := Option.some.inj hy
      exact goesOn_of_isBlank (hb z List.mem_cons_self)

/-- A word goes on over blanks to a text that begins with a given character. -/
theorem isChain_word_append {u b v : Text} {x y : Char} (hu : (u ++ [x]).IsChain GoesOn)
    (hxy : GoesOn x y) (hb : ∀ z ∈ b, isBlank z = true) (hv : (y :: v).IsChain GoesOn)
    (hr : y ≠ 'r') : ((u ++ [x]) ++ (b ++ y :: v)).IsChain GoesOn := by
  rw [List.isChain_append]
  refine ⟨hu, isChain_blanks_append hb hv (by simpa using hr), fun c hc d hd => ?_⟩
  rw [Option.mem_def, List.getLast?_concat] at hc
  obtain rfl := Option.some.inj hc
  cases b with
  | nil =>
    obtain rfl := Option.some.inj hd
    exact hxy
  | cons z b =>
    obtain rfl := Option.some.inj hd
    exact goesOn_of_isBlank (hb z List.mem_cons_self)

theorem IsMount.isChain (h : IsMount w) : w.IsChain GoesOn := by
  obtain ⟨b₁, b₂, b₃, b₄, hb, rfl⟩ := h
  simp only [List.forall_mem_append] at hb
  have h₄ : ("/>".toList ++ (b₄ ++ [')'])).IsChain GoesOn :=
    isChain_word_append (u := ['/']) (by decide) (by decide) hb.2.2.2 (by decide) (by decide)
  have h₃ : ("GeneratedLesson".toList ++ (b₃ ++ ("/>".toList ++ (b₄ ++ [')'])))).IsChain GoesOn :=
    isChain_word_append (u := "GeneratedLesso".toList) (by decide) (by decide) hb.2.2.1 h₄
      (by decide)
  have h₂ : (['<'] ++ (b₂ ++ ("GeneratedLesson".toList ++ (b₃ ++ ("/>".toList ++
      (b₄ ++ [')'])))))).IsChain GoesOn :=
    isChain_word_append (u := []) (by decide) (by decide) hb.2.1 h₃ (by decide)
  exact isChain_word_append (u := "render".toList) (by decide) (by decide) hb.1 h₂ (by decide)

theorem IsMount.mem (h : IsMount w) {z : Char} (hz : z ∈ w) :
    isBlank z = true ∨ z ∈ "render(<GeneratedLesson/>)".toList := by
  obtain ⟨b₁, b₂, b₃, b₄, hb, rfl⟩ := h
  simp only [List.mem_append] at hz hb
  have hword {u : Text} (hu : ∀ y ∈ u, y ∈ "render(<GeneratedLesson/>)".toList) (hz : z ∈ u) :
      isBlank z = true ∨ z ∈ "render(<GeneratedLesson/>)".toList := .inr (hu z hz)
  rcases hz with h | h | h | h | h | h | h | h | h
  · exact hword (by decide) h
  · exact .inl (hb z (.inl h))
  · exact hword (by decide) h
  · exact .inl (hb z (.inr (.inl h)))
  · exact hword (by decide) h
  · exact .inl (hb z (.inr (.inr (.inl h))))
  · exact hword (by decide) h
  · exact .inl (hb z (.inr (.inr (.inr h))))
  · exact hword (by decide) h

theorem IsMount.not_mem (h : IsMount w) {z : Char} (hb : isBlank z = false)
    (hz : z ∉ "render(<GeneratedLesson/>)".toList) : z ∉ w := by
  intro hmem
  rcases h.mem hmem with h | h
  · simp [hb] at h
  · exact hz h

theorem IsMount.exists_cons (h : IsMount w) : ∃ v, w = "render(".toList ++ v := by
  obtain ⟨b₁, b₂, b₃, b₄, -, rfl⟩ := h
  exact ⟨_, rfl⟩

/-- A mount call ends with its only closing parenthesis. -/
theorem IsMount.exists_concat (h : IsMount w) : ∃ v, w = v ++ [')'] ∧ ')' ∉ v := by
  obtain ⟨b₁, b₂, b₃, b₄, hb, rfl⟩ := h
  refine ⟨"render(".toList ++ (b₁ ++ (['<'] ++ (b₂ ++ ("GeneratedLesson".toList ++ (b₃ ++
    ("/>".toList ++ b₄)))))), by simp, ?_⟩
  have hblank : ∀ b : Text, (∀ z ∈ b, isBlank z = true) → ')' ∉ b :=
    fun b h hz => absurd (h _ hz) (by decide)
  simp only [List.forall_mem_append] at hb
  simp only [List.mem_append, not_or]
  exact ⟨by decide, hblank b₁ hb.1, by decide, hblank b₂ hb.2.1, by decide, hblank b₃ hb.2.2.1,
    by decide, hblank b₄ hb.2.2.2⟩

/-! ### Where mount calls are found -/

/-- A mount call begins just where its text stands and no name goes on. -/
theorem leads_mountCall {n : Nat} {l : Text} {κ : List (Nat × Capture)} :
    Settings.standard.mountCall.Leads ⟨⟨n, l, t⟩, κ⟩ (fun _ => True) ↔
      (∀ z ∈ l.head?, Sign.afterMember z = false) ∧ ∃ w q, t = w ++ q ∧ IsMount w := by
  have hcall : "render(".toList = Settings.standard.mountFunction ++ ['('] := by decide
  have hname : "GeneratedLesson".toList = Settings.standard.entryName := rfl
  simp only [Settings.mountCall, Settings.mountOf, Settings.freshCallee, all, blanks, many, opt,
    word, char, leads_seq, leads_notAfter, leads_text, leads_one, leads_run, leads_alt,
    leads_empty, beq_iff_eq, IsMount, hcall, hname, List.forall_mem_append]
  generalize Settings.standard.mountFunction = f
  generalize Settings.standard.entryName = g
  generalize "/>".toList = e
  constructor
  · rintro ⟨hl, _, rfl, _, _, rfl, rfl, b₁, _, rfl, hb₁, _, _, rfl, rfl, b₂, _, rfl, hb₂, _, rfl,
      b₃, _, rfl, hb₃, _, rfl, b₄, _, rfl, hb₄, _, q, rfl, rfl, -⟩
    exact ⟨hl, f ++ ['('] ++ (b₁ ++ (['<'] ++ (b₂ ++ (g ++ (b₃ ++ (e ++ (b₄ ++ [')']))))))), q,
      by simp, b₁, b₂, b₃, b₄, ⟨hb₁, hb₂, hb₃, hb₄⟩, rfl⟩
  · rintro ⟨hl, _, q, rfl, b₁, b₂, b₃, b₄, ⟨hb₁, hb₂, hb₃, hb₄⟩, rfl⟩
    exact ⟨hl, _, by simp, _, _, rfl, rfl, b₁, _, rfl, hb₁, _, _, rfl, rfl, b₂, _, rfl, hb₂, _, rfl,
      b₃, _, rfl, hb₃, _, rfl, b₄, _, rfl, hb₄, _, q, rfl, rfl, [], q, rfl,
      List.forall_mem_nil _, .inr trivial⟩

/-- What is found of a mount call: its text, and then blanks and a semicolon if they are there. -/
theorem mount_of_mem_ends {m : Match}
    (h : m.last ∈ Settings.standard.mountCall.ends ⟨m.first, []⟩) :
    m.first.isAfter Sign.afterMember = false ∧ ∃ w b s, m.text = w ++ (b ++ s) ∧ IsMount w ∧
      (∀ z ∈ b, isBlank z = true) ∧ (s = [] ∨ s = [';']) := by
  obtain ⟨u, hu, h⟩ := mem_ends_seq.mp h
  obtain ⟨v, hv, hend⟩ := mem_ends_seq.mp h
  obtain ⟨u₀, h₀, hu⟩ := mem_ends_seq.mp hu
  obtain ⟨rfl, hfresh⟩ := mem_ends_notAfter h₀
  obtain ⟨u₁, h₁, hu⟩ := mem_ends_seq.mp hu
  obtain ⟨u₂, h₂, hu⟩ := mem_ends_seq.mp hu
  obtain ⟨u₃, h₃, hu⟩ := mem_ends_seq.mp hu
  obtain ⟨u₄, h₄, hu⟩ := mem_ends_seq.mp hu
  obtain ⟨u₅, h₅, hu⟩ := mem_ends_seq.mp hu
  obtain ⟨u₆, h₆, hu⟩ := mem_ends_seq.mp hu
  obtain ⟨u₇, h₇, hu⟩ := mem_ends_seq.mp hu
  obtain ⟨u₈, h₈, hu⟩ := mem_ends_seq.mp hu
  obtain ⟨u₉, h₉, hu⟩ := mem_ends_seq.mp hu
  obtain ⟨b₁, hb₁, o₃, -⟩ := mem_ends_run h₃
  obtain ⟨b₂, hb₂, o₅, -⟩ := mem_ends_run h₅
  obtain ⟨b₃, hb₃, o₇, -⟩ := mem_ends_run h₇
  obtain ⟨b₄, hb₄, o₉, -⟩ := mem_ends_run h₉
  obtain ⟨b, hb, ob, -⟩ := mem_ends_run hv
  have hcall : Settings.standard.mountFunction ++ ['('] = "render(".toList := by decide
  have ocall := (mem_ends_text h₁).1.trans (mem_ends_char h₂).1
  rw [hcall] at ocall
  have oend := (mem_ends_text h₈).1.trans (o₉.trans (mem_ends_char hu).1)
  have oname := (mem_ends_text h₆).1.trans (o₇.trans oend)
  have omount := ocall.trans (o₃.trans ((mem_ends_char h₄).1.trans (o₅.trans oname)))
  have hw : ∃ w, m.first.Over w u.cursor ∧ IsMount w := by
    refine ⟨_, omount, b₁, b₂, b₃, b₄, ?_, rfl⟩
    simp only [List.forall_mem_append]
    exact ⟨hb₁, hb₂, hb₃, hb₄⟩
  obtain ⟨w, ow, hw⟩ := hw
  refine ⟨hfresh, w, b, ?_⟩
  rcases mem_ends_alt.mp hend with h | h
  · have htext := (ow.trans (ob.trans (mem_ends_char h).1)).between
    exact ⟨[';'], htext, hw, hb, .inr rfl⟩
  · obtain rfl := mem_ends_empty h
    exact ⟨[], by rw [List.append_nil]; exact (ow.trans ob).between, hw, hb, .inl rfl⟩

/-- No mount call begins inside of another. -/
theorem solid_mountCall : Settings.standard.mountCall.Solid := by
  constructor
  · intro m hm
    obtain ⟨-, w, b, s, htext, hw, -⟩ := mount_of_mem_ends hm
    obtain ⟨v, rfl⟩ := hw.exists_cons
    rw [htext]
    exact List.cons_ne_nil _ _
  · intro m d u v hm hu hv hune hvne hl
    obtain ⟨-, w, b, s, htext, hw, hb, hs⟩ := mount_of_mem_ends hm
    have hchain : (w ++ (b ++ s)).IsChain GoesOn := by
      have hbs : (b ++ s).IsChain GoesOn := by
        refine isChain_blanks_append hb ?_ ?_ <;> rcases hs with rfl | rfl <;> decide
      refine List.isChain_append.mpr ⟨hw.isChain, hbs, fun x hx y hy => ?_⟩
      obtain ⟨w', rfl, -⟩ := hw.exists_concat
      rw [Option.mem_def, List.getLast?_concat] at hx
      obtain rfl := Option.some.inj hx
      cases b with
      | nil =>
        rcases hs with rfl | rfl
        · cases hy
        · obtain rfl := Option.some.inj hy
          decide
      | cons z b =>
        obtain rfl := Option.some.inj hy
        exact goesOn_of_isBlank (hb z List.mem_cons_self)
    have hsplit : w ++ (b ++ s) = u ++ v := htext.symm.trans (hu.trans hv).between
    obtain ⟨n, l, r⟩ := d
    obtain ⟨hfresh, w', q, hr, hw'⟩ := leads_mountCall.mp hl
    obtain ⟨k, rfl⟩ := hw'.exists_cons
    obtain ⟨y, v, rfl⟩ := List.exists_cons_of_ne_nil hvne
    have hy : y = 'r' := by
      have := hv.after
      rw [hr] at this
      exact (List.cons.inj this).1.symm
    rw [hsplit, List.isChain_append] at hchain
    have hlast := hchain.2.2 (u.getLast hune) (List.getLast?_eq_some_getLast hune) y rfl
    have hbefore : l.head? = some (u.getLast hune) := by
      have hl : l = u.reverse ++ m.first.before := hu.before
      rw [hl, List.head?_append_of_ne_nil _ (by simpa using hune), List.head?_reverse,
        List.getLast?_eq_some_getLast hune]
    have := hfresh _ hbefore
    rw [hlast.1 hy] at this
    cases this

/-! ### Texts with mount calls -/

/-- No name and no member access goes on behind a text. -/
def Fresh (t : Text) : Prop := ∀ z ∈ t.getLast?, Sign.afterMember z = false

/-- A mount call stands in a text. -/
def Mounts (t : Text) : Prop := ∃ p w q, t = p ++ (w ++ q) ∧ IsMount w ∧ Fresh p

variable {u v : Text} {m : Match} {x : Char}

theorem fresh_nil : Fresh [] := nofun

theorem fresh_of_forall (h : ∀ z ∈ t, Sign.afterMember z = false) : Fresh t :=
  fun z hz => h z (List.mem_of_getLast? hz)

theorem fresh_of_blanks (h : ∀ z ∈ t, isBlank z = true) : Fresh t :=
  fresh_of_forall fun z hz => Sign.afterMember_of_isBlank (h z hz)

theorem Fresh.of_cons (h : Fresh (x :: p)) : Fresh p := by
  intro z hz
  have hne : p ≠ [] := by
    rintro rfl
    cases hz
  exact h z (by rwa [List.getLast?_cons_of_ne_nil hne])

theorem Fresh.of_append (h : Fresh (u ++ p)) : Fresh p := by
  intro z hz
  have hne : p ≠ [] := by
    rintro rfl
    cases hz
  exact h z (by rwa [List.getLast?_append_of_ne_nil u hne])

theorem Fresh.append (h : Fresh u) (ht : Fresh t) : Fresh (u ++ t) := by
  intro z hz
  by_cases hne : t = []
  · rw [hne, List.append_nil] at hz
    exact h z hz
  · rw [List.getLast?_append_of_ne_nil u hne] at hz
    exact ht z hz

theorem fresh_append_of_ne_nil (u : Text) (hne : t ≠ []) (h : Fresh t) : Fresh (u ++ t) := by
  intro z hz
  rw [List.getLast?_append_of_ne_nil u hne] at hz
  exact h z hz

namespace Mounts

theorem append_right (h : Mounts t) (u : Text) : Mounts (t ++ u) := by
  obtain ⟨p, w, q, rfl, hw, hp⟩ := h
  exact ⟨p, w, q ++ u, by simp, hw, hp⟩

theorem append_left (h : Mounts t) (hu : Fresh u) : Mounts (u ++ t) := by
  obtain ⟨p, w, q, rfl, hw, hp⟩ := h
  exact ⟨u ++ p, w, q, by simp, hw, hu.append hp⟩

/-- A mount call that does not begin with a text stands behind any other text as well. -/
theorem append_left_of_head (h : Mounts t) (ht : ∀ z ∈ t.head?, z ≠ 'r') : Mounts (u ++ t) := by
  obtain ⟨p, w, q, rfl, hw, hp⟩ := h
  obtain ⟨k, rfl⟩ := hw.exists_cons
  have hne : p ≠ [] := by
    rintro rfl
    exact ht 'r' rfl rfl
  exact ⟨u ++ p, _, q, by simp, hw, fresh_append_of_ne_nil u hne hp⟩

/-- A mount call begins with no other character than its first. -/
theorem of_cons (h : Mounts (x :: t)) (hx : x ≠ 'r') : Mounts t := by
  obtain ⟨p, w, q, he, hw, hp⟩ := h
  cases p with
  | nil =>
    obtain ⟨v, rfl⟩ := hw.exists_cons
    exact absurd (List.cons.inj he).1 hx
  | cons y p =>
    obtain ⟨rfl, rfl⟩ := List.cons.inj he
    exact ⟨p, w, q, rfl, hw, hp.of_cons⟩

theorem of_blanks {g : Text} (hg : ∀ z ∈ g, isBlank z = true) (h : Mounts (g ++ t)) :
    Mounts t := by
  induction g with
  | nil => exact h
  | cons x g ih =>
    obtain ⟨hx, hg⟩ := List.forall_mem_cons.mp hg
    refine ih hg (h.of_cons ?_)
    rintro rfl
    exact absurd hx (by decide)

/-- No mount call goes over a character that none of them holds. -/
theorem cases_of_not_mem (hb : isBlank x = false) (hx : x ∉ "render(<GeneratedLesson/>)".toList)
    (h : Mounts (u ++ x :: v)) : Mounts u ∨ Mounts v := by
  obtain ⟨p, w, q, he, hw, hp⟩ := h
  have hnot : x ∉ w := hw.not_mem hb hx
  rcases List.append_eq_append_iff.mp he with ⟨c, rfl, hc⟩ | ⟨c, rfl, hc⟩
  · cases c with
    | nil =>
      obtain ⟨k, rfl⟩ := hw.exists_cons
      exact absurd (List.cons.inj hc).1 fun hr => hnot (hr ▸ List.mem_cons_self)
    | cons y c =>
      obtain ⟨rfl, rfl⟩ := List.cons.inj hc
      exact .inr ⟨c, w, q, rfl, hw, hp.of_append.of_cons⟩
  · rcases List.append_eq_append_iff.mp hc with ⟨d, rfl, -⟩ | ⟨d, rfl, hd⟩
    · exact .inl ⟨p, w, d, rfl, hw, hp⟩
    · cases d with
      | nil => exact .inl ⟨p, c, [], by simp, by simpa using hw, hp⟩
      | cons y d =>
        obtain rfl := (List.cons.inj hd).1
        simp at hnot

/-- A mount call does not go over the second word of an import. -/
theorem cases_of_from (h : Mounts (u ++ (fromWord ++ v))) : Mounts u ∨ Mounts v := by
  have hsplit : Mounts (u ++ 'f' :: ('r' :: 'o' :: 'm' :: v)) := h
  refine (hsplit.cases_of_not_mem (by decide) (by decide)).imp_right fun h => ?_
  obtain ⟨p, w, q, he, hw, hp⟩ := h
  obtain ⟨k, rfl⟩ := hw.exists_cons
  match p, hp, he with
  | [], _, he => cases he
  | [_], _, he => cases he
  | [_, _], _, he => cases he
  | [x, y, z], hp, he =>
    obtain ⟨rfl, rfl, rfl, -⟩ := by simpa using he
    exact absurd (hp 'm' rfl) (by decide)
  | x :: y :: z :: d :: p, hp, he =>
    obtain ⟨rfl, rfl, rfl, rfl⟩ := by simpa using he
    exact ⟨d :: p, _, q, by simp, hw, hp.of_cons.of_cons.of_cons⟩

/-- A mount call does not begin in a text without its opening parenthesis. -/
theorem of_not_mem (hu : '(' ∉ u) (hv : ∀ z ∈ v.head?, z ∉ "render(".toList)
    (h : Mounts (u ++ v)) : Mounts v := by
  obtain ⟨p, w, q, he, hw, hp⟩ := h
  rcases List.append_eq_append_iff.mp he with ⟨c, rfl, rfl⟩ | ⟨c, rfl, hc⟩
  · exact ⟨c, w, q, rfl, hw, hp.of_append⟩
  · obtain ⟨k, rfl⟩ := hw.exists_cons
    have hc' : "render".toList ++ '(' :: (k ++ q) = c ++ v := hc
    rcases List.append_eq_append_iff.mp hc' with ⟨e, rfl, hv'⟩ | ⟨e, hword, rfl⟩
    · cases e with
      | nil =>
        obtain rfl : '(' :: (k ++ q) = v := hv'
        exact absurd (hv '(' rfl) (by decide)
      | cons y e =>
        obtain rfl := (List.cons.inj hv').1
        simp at hu
    · cases e with
      | nil => exact absurd (hv '(' rfl) (by decide)
      | cons y e =>
        have hy : y ∈ "render".toList := by rw [hword]; simp
        exact absurd ((by decide : ∀ z ∈ "render".toList, z ∈ "render(".toList) y hy) (hv y rfl)

/-- A mount call goes across from one text to the next. -/
def Across (u v : Text) : Prop :=
  ∃ p c d q, u = p ++ c ∧ v = d ++ q ∧ c ≠ [] ∧ d ≠ [] ∧ IsMount (c ++ d) ∧ Fresh p

/-- Where the mount call of two texts stands. -/
theorem cases_append (h : Mounts (u ++ v)) : Mounts u ∨ Mounts v ∨ Across u v := by
  obtain ⟨p, w, q, he, hw, hp⟩ := h
  rcases List.append_eq_append_iff.mp he with ⟨c, rfl, rfl⟩ | ⟨c, rfl, hc⟩
  · exact .inr (.inl ⟨c, w, q, rfl, hw, hp.of_append⟩)
  · rcases List.append_eq_append_iff.mp hc with ⟨d, rfl, -⟩ | ⟨d, rfl, rfl⟩
    · exact .inl ⟨p, w, d, rfl, hw, hp⟩
    · by_cases hcnil : c = []
      · subst hcnil
        exact .inr (.inl ⟨[], d, q, rfl, hw, fresh_nil⟩)
      · by_cases hdnil : d = []
        · subst hdnil
          exact .inl ⟨p, c, [], by simp, by simpa using hw, hp⟩
        · exact .inr (.inr ⟨p, c, d, q, rfl, rfl, hcnil, hdnil, hw, hp⟩)

/-- A mount call does not go over the beginning of a closing tag. -/
theorem cases_of_closer {g y : Text} (hg : ∀ z ∈ g, isBlank z = true) (hy : '(' ∉ y)
    (hv : ∀ z ∈ v.head?, z ∉ "render(".toList) (h : Mounts (u ++ (g ++ '<' :: '/' :: (y ++ v)))) :
    Mounts u ∨ Mounts v := by
  obtain ⟨p, w, q, he, hw, hp⟩ := h
  rcases List.append_eq_append_iff.mp he with ⟨c, rfl, hc⟩ | ⟨c, rfl, hc⟩
  · have hrest : Mounts (g ++ '<' :: '/' :: (y ++ v)) := ⟨c, w, q, hc, hw, hp.of_append⟩
    have hinner := ((hrest.of_blanks hg).of_cons (by decide)).of_cons (by decide)
    exact .inr (hinner.of_not_mem hy hv)
  · rcases List.append_eq_append_iff.mp hc with ⟨d, rfl, -⟩ | ⟨d, rfl, hd⟩
    · exact .inl ⟨p, w, d, rfl, hw, hp⟩
    · by_cases hnil : d = []
      · subst hnil
        exact .inl ⟨p, c, [], by simp, by simpa using hw, hp⟩
      · exfalso
        obtain ⟨k, hk, -⟩ := hw.exists_concat
        have hlast : d.getLast? = some ')' := by
          rw [← List.getLast?_append_of_ne_nil c hnil, hk, List.getLast?_concat]
        have hd' : (g ++ ['<']) ++ '/' :: (y ++ v) = d ++ q := by simpa using hd
        rcases List.append_eq_append_iff.mp hd' with ⟨e, rfl, he'⟩ | ⟨e, hge, -⟩
        · cases e with
          | nil => simp at hlast
          | cons x e =>
            obtain rfl := (List.cons.inj he').1
            have hchain := hw.isChain
            have hsplit : c ++ ((g ++ ['<']) ++ '/' :: e) = (c ++ g) ++ '<' :: '/' :: e := by simp
            rw [hsplit, List.isChain_append_cons_cons] at hchain
            exact hchain.2.1.2 ⟨rfl, rfl⟩
        · have hmem : ')' ∈ g ++ ['<'] := by
            rw [hge]
            exact List.mem_append_left _ (List.mem_of_getLast? hlast)
          rcases List.mem_append.mp hmem with h | h
          · exact absurd (hg _ h) (by decide)
          · simp at h

end Mounts

/-- The last mount call that is found stands in the text, and none begins behind it. -/
theorem exists_findLast?_mountCall (hw : IsMount w) (hp : Fresh p) :
    ∃ m, Settings.standard.mountCall.findLast? (p ++ (w ++ q)) = some m ∧ p.length ≤ m.start := by
  refine solid_mountCall.exists_findLast? (leads_mountCall.mpr ⟨?_, w, q, rfl, hw⟩)
  rw [List.head?_reverse]
  exact hp

/-- What is found is a mount call, with blanks and a semicolon if they are there. -/
theorem mount_of_finds (h : Settings.standard.mountCall.Finds (.ofText t) m) :
    ∃ p w b s, t = p ++ (w ++ (b ++ (s ++ m.last.cursor.after))) ∧ IsMount w ∧ Fresh p ∧
      m.start = p.length ∧ (∀ z ∈ b, isBlank z = true) ∧ (s = [] ∨ s = [';']) := by
  obtain ⟨a, ha⟩ := h.first
  obtain ⟨p, ht, hstart, -⟩ := h.split
  obtain ⟨hfresh, w, b, s, htext, hw, hb, hs⟩ := mount_of_mem_ends h.last
  have hpa : a = p := by
    have hlen : a.length = p.length := by rw [← hstart, Match.start, ha.pos]; simp [Cursor.ofText]
    have hat : t = a ++ m.first.after := ha.after
    exact List.append_inj_left (hat.symm.trans ht) hlen
  refine ⟨p, w, b, s, by rw [ht, htext]; simp, hw, fun z hz => ?_, hstart, hb, hs⟩
  have hbefore : m.first.before = p.reverse := by rw [ha.before, hpa]; simp [Cursor.ofText]
  obtain ⟨p', rfl⟩ := List.getLast?_eq_some_iff.mp (Option.mem_def.mp hz)
  rw [Cursor.isAfter, hbefore, List.reverse_append] at hfresh
  exact hfresh

/-- A mount call at the end of a text is found with its semicolon. -/
theorem exists_findLast?_of_terminal {b s e : Text} (hw : IsMount w) (hp : Fresh p)
    (hb : ∀ z ∈ b, isBlank z = true) (hs : s = [] ∨ s = [';']) (he : ∀ z ∈ e, isBlank z = true) :
    ∃ m, Settings.standard.mountCall.findLast? (p ++ (w ++ (b ++ (s ++ e)))) = some m ∧
      Text.allBlank m.last.cursor.after = true := by
  obtain ⟨m, hm, hle⟩ := exists_findLast?_mountCall (q := b ++ (s ++ e)) hw hp
  refine ⟨m, hm, ?_⟩
  have hfinds := finds_of_findLast? hm
  obtain ⟨a, ht, hstart, -⟩ := hfinds.split
  obtain ⟨-, w', b', s', htext, hw', hb', hs'⟩ := mount_of_mem_ends hfinds.last
  have hsemi {g : Text} (hg : ∀ z ∈ g, isBlank z = true) : ';' ∉ g :=
    fun h => absurd (hg _ h) (by decide)
  have hkind {z : Char} (hz : z ∈ b ++ (s ++ e)) : isBlank z = true ∨ z = ';' := by
    rcases List.mem_append.mp hz with h | h
    · exact .inl (hb z h)
    rcases List.mem_append.mp h with h | h
    · rcases hs with rfl | rfl
      · cases h
      · exact .inr (List.mem_singleton.mp h)
    · exact .inl (he z h)
  -- both calls end with the last closing parenthesis of the text
  have htail : b ++ (s ++ e) = b' ++ (s' ++ m.last.cursor.after) := by
    obtain ⟨k, rfl⟩ : p <+: a :=
      List.prefix_of_prefix_length_le ⟨_, rfl⟩ ⟨_, ht.symm⟩ (hstart ▸ hle)
    obtain ⟨v, rfl, hv⟩ := hw.exists_concat
    obtain ⟨v', rfl, -⟩ := hw'.exists_concat
    have hnot : ')' ∉ b ++ (s ++ e) := fun h => (hkind h).elim (absurd · (by decide)) (by decide)
    have hsplit : v ++ ')' :: (b ++ (s ++ e)) =
        (k ++ v') ++ ')' :: (b' ++ (s' ++ m.last.cursor.after)) := by
      rw [htext] at ht
      simpa using ht
    exact ((List.append_cons_inj_of_notMem hv hnot).mp hsplit).2.2
  have hfirst : Settings.standard.mountCall.matchAt? m.first = some m :=
    matchAt?_of_mem_findUpTo (List.mem_of_getLast? hm)
  rcases rest_of_matchAt? hfirst with hafter | hnext
  · obtain ⟨-, q', -, hq'⟩ := hfinds.exists_over
    rw [show q' = m.text from hq'.between.symm, htext] at hq'
    have hlast : (w' ++ (b' ++ s')).getLast? = some ';' := by
      obtain ⟨v', rfl, -⟩ := hw'.exists_concat
      obtain ⟨x, k, hk⟩ := List.exists_cons_of_ne_nil
        (show (v' ++ [')'] ++ (b' ++ s')).reverse ≠ [] by simp)
      rw [Cursor.isAfter, hq'.before, hk] at hafter
      rw [← List.head?_reverse, hk, List.head?_cons, eq_of_beq hafter]
    rcases hs' with rfl | rfl
    · obtain ⟨v', rfl, -⟩ := hw'.exists_concat
      have hmem : ';' ∈ ')' :: b' := by
        rw [List.append_nil, List.append_assoc, List.getLast?_append_of_ne_nil _ (by simp)] at hlast
        exact List.mem_of_getLast? hlast
      exact absurd ((List.mem_cons.mp hmem).resolve_left (by decide)) (hsemi hb')
    · rcases hs with rfl | rfl
      · have hmem : ';' ∈ b ++ ([] ++ e) := by rw [htail]; simp
        exact absurd hmem (by simp [hsemi hb, hsemi he])
      · obtain ⟨-, -, rfl⟩ := (List.append_cons_inj_of_notMem (hsemi hb) (hsemi he)).mp htail
        exact List.all_eq_true.mpr he
  · -- nothing follows
    cases hrest : m.last.cursor.after with
    | nil => rfl
    | cons x k =>
      rw [hrest] at hnext htail
      obtain ⟨hx, hne⟩ := hnext x rfl
      rcases hkind (z := x) (by rw [htail]; simp) with h | h
      · rw [hx] at h
        cases h
      · exact absurd h hne

/-- The mount call of a text that fulfils the contract is the only one, and only blanks follow. -/
theorem exists_findAll_of_checkMount (h : Contract.checkMount .standard t = []) :
    ∃ m, Settings.standard.mountCall.findAll t = [m] ∧
      ∀ z ∈ m.last.cursor.after, isBlank z = true := by
  simp only [Contract.checkMount] at h
  split at h
  · cases h
  next m hm =>
  obtain ⟨hmany, hend⟩ := List.append_eq_nil_iff.mp h
  split at hmany
  · cases hmany
  next hfew =>
  split at hend
  · next hblank =>
    refine ⟨m, ?_, List.all_eq_true.mp hblank⟩
    obtain ⟨ms, hms⟩ := List.getLast?_eq_some_iff.mp hm
    rw [hms] at hfew ⊢
    simp only [List.length_append, List.length_cons, List.length_nil] at hfew
    obtain rfl : ms = [] := List.eq_nil_of_length_eq_zero (by omega)
    rfl
  · cases hend

/-- A search that finds one piece finds it first. -/
theorem searchFrom?_of_findAll {p : Pattern} (h : p.findAll t = [m]) :
    p.searchFrom? (.ofText t) = some m := by
  rw [findAll, findUpTo] at h
  split at h
  · cases h
  · next m' hm' =>
    obtain rfl : m' = m := (List.cons.inj h).1
    exact hm'

theorem exists_of_checkMount (h : Contract.checkMount .standard t = []) :
    ∃ m, Settings.standard.mountCall.searchFrom? (.ofText t) = some m ∧
      ∀ z ∈ m.last.cursor.after, isBlank z = true := by
  obtain ⟨m, hm, hblank⟩ := exists_findAll_of_checkMount h
  exact ⟨m, searchFrom?_of_findAll hm, hblank⟩

/-- A text that fulfils the contract holds no mount call between the words of an import. -/
theorem not_mounts_of_checkMount {a k b : Text} (h : Contract.checkMount .standard t = [])
    (hi : Import t a k b) : ¬ Mounts k := by
  rintro ⟨p, w, q, rfl, hw, hp⟩
  obtain ⟨m, hm, hafter⟩ := exists_of_checkMount h
  have hne : p ≠ [] := by
    rintro rfl
    obtain ⟨z, hz, hblank⟩ := hi.clause.head
    obtain ⟨v, rfl⟩ := hw.exists_cons
    obtain rfl := Option.some.inj hz
    exact absurd hblank (by decide)
  have hfresh : Fresh (a ++ (importWord ++ p)) :=
    fresh_append_of_ne_nil _ (by simp [hne]) (fresh_append_of_ne_nil _ hne hp)
  have ht : t = (a ++ (importWord ++ p)) ++ (w ++ (q ++ (fromWord ++ b))) := by
    rw [hi.eq]
    simp
  have hle : m.start ≤ (a ++ (importWord ++ p)).length := by
    have ho : (Cursor.ofText t).Over (a ++ (importWord ++ p)) ⟨(a ++ (importWord ++ p)).length,
        (a ++ (importWord ++ p)).reverse, w ++ (q ++ (fromWord ++ b))⟩ :=
      ⟨ht, by simp [Cursor.ofText], by simp [Cursor.ofText]⟩
    refine start_le_of_searchFrom? hm ho (leads_mountCall.mpr ⟨?_, w, _, rfl, hw⟩)
    rw [List.head?_reverse]
    exact hfresh
  obtain ⟨p', w', b', s, ht', hw', -, hstart, hb', hs⟩ := mount_of_finds (finds_of_searchFrom? hm)
  have hsuffix : w ++ (q ++ (fromWord ++ b)) <:+ w' ++ (b' ++ (s ++ m.last.cursor.after)) := by
    refine List.suffix_of_suffix_length_le ⟨_, ht.symm⟩ ⟨_, ht'.symm⟩ ?_
    have := congrArg List.length (ht.symm.trans ht')
    simp only [List.length_append] at this hle hstart ⊢
    omega
  have hmem : 'f' ∈ w' ++ (b' ++ (s ++ m.last.cursor.after)) :=
    hsuffix.subset (by simp [fromWord])
  simp only [List.mem_append] at hmem
  rcases hmem with h | h | h | h
  · exact hw'.not_mem (by decide) (by decide) h
  · exact absurd (hb' _ h) (by decide)
  · rcases hs with rfl | rfl
    · cases h
    · simp at h
  · exact absurd (hafter _ h) (by decide)

/-! ### Imports away from mount calls -/

/-- No mount call stands between the words of an import, or one stands behind them. -/
def Calm (k b : Text) : Prop := ¬ Mounts k ∨ Mounts b

theorem Calm.imp {k b b' : Text} (h : Calm k b) (hb : Mounts b → Mounts b') : Calm k b' :=
  Or.imp_right hb h

end SnippetGate
