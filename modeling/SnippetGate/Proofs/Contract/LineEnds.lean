import SnippetGate.Proofs.Balance.LineEnds
import SnippetGate.Proofs.Contract.Placement
import SnippetGate.Proofs.Pattern.Lone

/-!
# The contract and the spelling of line ends

A text fulfils the contract with a carriage return before each newline if it does without, and the
other way round but for one signature of corruption, which is detected only where a newline follows
a brace or an indentation at once.
-/

namespace SnippetGate

open Pattern Text

variable {t u v : Text} {m : Match}

namespace Contract

/-! ### The declaration of the entry point -/

/-- The declaration of the entry point with parameters of some characters. -/
def entryWith (q : Char → Bool) : Pattern :=
  all [.wordEdge, word "function", gap, text Settings.standard.entryName, blanks, char '(',
    .group 1 (many q), char ')']

theorem entryDeclaration_eq : Settings.standard.entryDeclaration = entryWith (· != ')') := rfl

/-- A declaration of the entry point with these parameters begins at a place. -/
def Declares (params : Text) : Condition := fun u v =>
  u.getLast?.any isWord ≠ v.head?.any isWord ∧ ∃ x g b r, isBlank x = true ∧
    (∀ x ∈ g, isBlank x = true) ∧ (∀ x ∈ b, isBlank x = true) ∧
    v = "function".toList ++ (x :: (g ++ ("GeneratedLesson".toList ++
      (b ++ '(' :: (params ++ ')' :: r)))))

theorem begins_entryWith {q : Char → Bool} : (entryWith q).Begins u v ↔
    ∃ params, (∀ x ∈ params, q x = true) ∧ Declares params u v := by
  have hname : "GeneratedLesson".toList = Settings.standard.entryName := rfl
  simp only [Begins, entryWith, all, Reaches, word, reaches_text, gap, many1, blanks, many, char,
    Declares, hname, beq_iff_eq]
  constructor
  · rintro ⟨hedge, _, rfl, x, _, rfl, hx, g, _, rfl, hg, _, rfl, b, _, rfl, hb, _, _, rfl, rfl,
      params, _, rfl, hq, _, r, rfl, rfl, -⟩
    exact ⟨params, hq, hedge, x, g, b, r, hx, hg, hb, rfl⟩
  · rintro ⟨params, hq, hedge, x, g, b, r, hx, hg, hb, rfl⟩
    exact ⟨hedge, _, rfl, x, _, rfl, hx, g, _, rfl, hg, _, rfl, b, _, rfl, hb, _, _, rfl, rfl,
      params, _, rfl, hq, _, r, rfl, rfl, trivial⟩

theorem not_mem_of_blanks {x : Char} (h : ∀ z ∈ t, isBlank z = true) (hx : isBlank x = false) :
    x ∉ t := fun hmem => by simp [h x hmem] at hx

/-- The parameters that are found are those of the declaration. -/
theorem group_of_declares {params : Text}
    (h : Settings.standard.entryDeclaration.Finds (.ofText (u ++ v)) m) (hs : u.length = m.start)
    (hp : ')' ∉ params) (hd : Declares params u v) :
    m.group 1 = params ∧ ∃ r, v = m.text ++ r := by
  obtain ⟨a, ht, ha, -⟩ := h.split
  obtain ⟨rfl, hv⟩ := List.append_inj ht (hs.trans ha)
  refine ⟨?_, _, hv⟩
  obtain ⟨g, b, htext, hg, hb, hgroup⟩ := entry_of_mem_ends h.last
  obtain ⟨-, x, g', b', r, hx, hg', hb', hd⟩ := hd
  have hparen {k : Text} (hk : ∀ x ∈ k, isBlank x = true) : ∀ x ∈ k, (x != '(') = true :=
    bne_of_notMem (not_mem_of_blanks hk (by decide))
  -- both divide the text at its first opening parenthesis, and then at the closing one
  have hsplit : ("function".toList ++ (g ++ ("GeneratedLesson".toList ++ b))) ++
      '(' :: (m.group 1 ++ ')' :: m.last.cursor.after) =
        ("function".toList ++ (x :: g' ++ ("GeneratedLesson".toList ++ b'))) ++
          '(' :: (params ++ ')' :: r) := by
    rw [htext] at hv
    rw [hv] at hd
    simpa using hd
  have hhead {g b : Text} (hg : ∀ x ∈ g, isBlank x = true) (hb : ∀ x ∈ b, isBlank x = true) :
      ∀ x ∈ "function".toList ++ (g ++ ("GeneratedLesson".toList ++ b)), (x != '(') = true := by
    simp only [List.forall_mem_append]
    exact ⟨by decide, hparen hg, by decide, hparen hb⟩
  obtain ⟨-, -, hrest⟩ := eq_of_first_of_other (hhead hg hb)
    (hhead (List.forall_mem_cons.mpr ⟨hx, hg'⟩) hb') (by decide) (by decide) hsplit
  exact (eq_of_first_of_other (bne_of_notMem hgroup) (bne_of_notMem hp) (by decide)
    (by decide) hrest).1

/-- No declaration of the entry point begins inside of one without parameters. -/
theorem eq_nil_of_entry {k l r : Text} (h : Settings.standard.entryDeclaration.Finds (.ofText t) m)
    (hp : ∀ x ∈ m.group 1, isBlank x = true) (ht : m.text = k ++ l) (hl : l ≠ [])
    (hd : Settings.standard.entryDeclaration.Begins u (l ++ r)) : k = [] := by
  obtain ⟨g, b, htext, hg, hb, -⟩ := entry_of_mem_ends h.last
  rw [entryDeclaration_eq, begins_entryWith] at hd
  obtain ⟨params, -, -, x, g', b', r', -, -, -, he⟩ := hd
  obtain ⟨y, l, rfl⟩ := List.exists_cons_of_ne_nil hl
  obtain rfl : y = 'f' := (List.cons.inj he).1
  cases k with
  | nil => rfl
  | cons z k =>
    -- the first letter of the declaration occurs in it only once
    have htail : k ++ 'f' :: l = "unction".toList ++ (g ++ ("GeneratedLesson".toList ++ (b ++
        ('(' :: (m.group 1 ++ [')']))))) := (List.cons.inj (ht.symm.trans htext)).2
    have hmem := List.mem_append_right k (List.mem_cons_self (a := 'f') (l := l))
    rw [htail] at hmem
    have hnot {q : Text} (hq : ∀ x ∈ q, isBlank x = true) : 'f' ∉ q :=
      not_mem_of_blanks hq (by decide)
    simp [hnot hg, hnot hb, hnot hp] at hmem

/-- The declaration of the entry point fulfils the contract if it has no parameters and is the only
one. -/
theorem checkEntryPoint_eq_nil_iff : checkEntryPoint .standard t = [] ↔
    Settings.standard.entryDeclaration.IsLone (entryWith isBlank).Begins t := by
  constructor
  · intro h
    obtain ⟨m, hm, hparams⟩ := exists_findAll_of_checkEntryPoint h
    have hfinds := finds_of_mem_findAll (t := t) (hm ▸ List.mem_cons_self)
    obtain ⟨u, v, rfl, hlen, hb⟩ := exists_begins_of_finds rfl hfinds
    rw [entryDeclaration_eq, begins_entryWith] at hb
    obtain ⟨params, hq, hd⟩ := hb
    have hp : ')' ∉ params := fun hmem => by simpa using hq _ hmem
    obtain ⟨rfl, r, rfl⟩ := group_of_declares hfinds hlen hp hd
    refine ⟨u, _, rfl, begins_entryWith.mpr ⟨_, hparams, hd⟩, fun u' v' he hb' => ?_⟩
    obtain ⟨a, -, ha, hstop⟩ := hfinds.split
    have hne : m.text ≠ [] := by
      obtain ⟨g, b, htext, -⟩ := entry_of_mem_ends hfinds.last
      rw [htext]
      exact List.cons_ne_nil _ _
    obtain ⟨hle, hlt⟩ := le_length_of_findAll rfl (he ▸ hm) hne hb'
    obtain ⟨k, rfl⟩ : u <+: u' :=
      List.prefix_of_prefix_length_le ⟨_, rfl⟩ ⟨_, he.symm⟩ (hlen ▸ hle)
    rw [List.append_assoc, List.append_cancel_left_eq] at he
    obtain ⟨l, hl⟩ : k <+: m.text := by
      refine List.prefix_of_prefix_length_le ⟨_, he.symm⟩ ⟨_, rfl⟩ ?_
      rw [List.length_append] at hlt
      omega
    have hl' : l ≠ [] := by
      rintro rfl
      rw [List.append_nil] at hl
      rw [List.length_append, hl] at hlt
      omega
    rw [← hl, List.append_assoc, List.append_cancel_left_eq] at he
    rw [eq_nil_of_entry hfinds hparams hl.symm hl' (he ▸ hb'), List.append_nil]
  · rintro ⟨u, v, rfl, hplain, honly⟩
    obtain ⟨params, hparams, hd⟩ := begins_entryWith.mp hplain
    have hp : ')' ∉ params := not_mem_of_blanks hparams (by decide)
    have hb : Settings.standard.entryDeclaration.Begins u v :=
      begins_entryWith.mpr ⟨params, bne_of_notMem hp, hd⟩
    obtain ⟨m, hm, hstart⟩ := exists_findAll_of_begins rfl hb honly
    have hfinds := finds_of_mem_findAll (t := u ++ v) (hm ▸ List.mem_cons_self)
    obtain ⟨rfl, -⟩ := group_of_declares hfinds hstart.symm hp hd
    have hall : Text.allBlank (m.group 1) = true := List.all_eq_true.mpr hparams
    simp [checkEntryPoint, hm, hall]

/-! ### The mount call -/

/-- The mount call with all blanks behind it. -/
def mountWithBlanks : Pattern := .seq Settings.standard.mountCall blanks

/-- A mount call begins at a place, and nothing but blanks and a semicolon follow it. -/
def MountsLast : Condition := fun u v => Fresh u ∧ IsLastMount v

theorem reaches_mountWithBlanks :
    mountWithBlanks.Reaches (fun _ r => r = []) u v ↔ MountsLast u v := by
  have hcall : "render(".toList = Settings.standard.mountFunction ++ ['('] := by decide
  have hname : "GeneratedLesson".toList = Settings.standard.entryName := rfl
  simp only [mountWithBlanks, Settings.mountCall, Settings.mountOf, Settings.freshCallee, all,
    blanks, many, opt, word, char, Reaches, reaches_text, beq_iff_eq, MountsLast, IsLastMount,
    IsMount, hcall, hname, List.forall_mem_append]
  constructor
  · rintro ⟨hu, _, rfl, _, _, rfl, rfl, b₁, _, rfl, hb₁, _, _, rfl, rfl, b₂, _, rfl, hb₂, _, rfl,
      b₃, _, rfl, hb₃, _, rfl, b₄, _, rfl, hb₄, _, q, rfl, rfl, b, _, rfl, hb, hend⟩
    rcases hend with ⟨_, _, rfl, rfl, r, _, rfl, hr, rfl⟩ | ⟨r, _, rfl, hr, rfl⟩
    · exact ⟨hu, _, b, [';'], r, by simp, ⟨b₁, b₂, b₃, b₄, ⟨hb₁, hb₂, hb₃, hb₄⟩, rfl⟩, hb, .inr rfl,
        hr⟩
    · exact ⟨hu, _, b, [], r, by simp, ⟨b₁, b₂, b₃, b₄, ⟨hb₁, hb₂, hb₃, hb₄⟩, rfl⟩, hb, .inl rfl,
        hr⟩
  · rintro ⟨hu, _, b, s, r, rfl, ⟨b₁, b₂, b₃, b₄, ⟨hb₁, hb₂, hb₃, hb₄⟩, rfl⟩, hb, hs, hr⟩
    refine ⟨hu, _, by simp, _, _, rfl, rfl, b₁, _, rfl, hb₁, _, _, rfl, rfl, b₂, _, rfl, hb₂, _,
      rfl, b₃, _, rfl, hb₃, _, rfl, b₄, _, rfl, hb₄, _, _, rfl, rfl, b, s ++ r, rfl, hb, ?_⟩
    rcases hs with rfl | rfl
    · exact .inr ⟨r, [], by simp, hr, rfl⟩
    · exact .inl ⟨_, _, rfl, rfl, r, [], by simp, hr, rfl⟩

theorem begins_mountCall : Settings.standard.mountCall.Begins u v ↔
    Fresh u ∧ ∃ w q, v = w ++ q ∧ IsMount w := by
  rw [← leads_iff_begins (by rfl) (n := 0) (κ := []), leads_mountCall, List.head?_reverse]
  rfl

/-- The mount call fulfils the contract if nothing but blanks follow it and it is the only one. -/
theorem checkMount_eq_nil_iff : checkMount .standard t = [] ↔
    Settings.standard.mountCall.IsLone MountsLast t := by
  constructor
  · intro h
    obtain ⟨m, hm, hblank⟩ := exists_findAll_of_checkMount h
    obtain ⟨p, w, b, s, ht, hw, hp, hstart, hb, hs⟩ :=
      mount_of_finds (finds_of_mem_findAll (t := t) (hm ▸ List.mem_cons_self))
    refine ⟨p, _, ht, ⟨hp, w, b, s, _, rfl, hw, hb, hs, hblank⟩, fun u' v' he hb' => ?_⟩
    obtain ⟨hu', w', q', rfl, hw'⟩ := begins_mountCall.mp hb'
    -- the only call that is found is both the first and the last
    obtain ⟨m', hlast, hle⟩ := exists_findLast?_mountCall (q := q') hw' hu'
    rw [← he, Pattern.findLast?, hm, List.getLast?_singleton] at hlast
    obtain rfl := Option.some.inj hlast
    have hge : m.start ≤ u'.length := by
      have ho : (Cursor.ofText t).Over u' ⟨u'.length, u'.reverse, w' ++ q'⟩ :=
        ⟨he, by simp [Cursor.ofText], by simp [Cursor.ofText]⟩
      exact start_le_of_searchFrom? (searchFrom?_of_findAll hm) ho
        ((leads_iff_begins (by rfl)).mpr hb')
    exact (List.append_inj (ht.symm.trans he) (by omega)).1.symm
  · rintro ⟨u, v, rfl, ⟨hu, w, b, s, r, rfl, hw, hb, hs, hr⟩, honly⟩
    have hbegins := begins_mountCall.mpr ⟨hu, w, b ++ (s ++ r), rfl, hw⟩
    obtain ⟨m, hm, -⟩ := exists_findAll_of_begins (by rfl) hbegins honly
    obtain ⟨m', hlast, hafter⟩ := exists_findLast?_of_terminal hw hu hb hs hr
    rw [Pattern.findLast?, hm, List.getLast?_singleton] at hlast
    obtain rfl := Option.some.inj hlast
    simp [checkMount, hm, hafter]

/-! ### The checks of words -/

theorem checkEntryPoint_crlf :
    checkEntryPoint .standard (crlf t) = [] ↔ checkEntryPoint .standard t = [] := by
  rw [checkEntryPoint_eq_nil_iff, checkEntryPoint_eq_nil_iff]
  exact isLone_crlf (by rfl) (Begins.even (by rfl))
    (Within.holds_free.reaches (entryWith isBlank)) (by rfl)

theorem checkMount_crlf : checkMount .standard (crlf t) = [] ↔ checkMount .standard t = [] := by
  have hend : Condition.Even fun _ r => r = [] := fun _ _ => crlf_eq_nil
  have hapart : Within.apart.Holds fun _ r => r = [] :=
    Within.holds_apart fun _ _ => List.cons_ne_nil _ _
  have heq : MountsLast = mountWithBlanks.Reaches fun _ r => r = [] :=
    funext fun u => funext fun v => propext reaches_mountWithBlanks.symm
  rw [checkMount_eq_nil_iff, checkMount_eq_nil_iff, heq]
  exact isLone_crlf (by rfl) (hend.reaches hapart (by rfl))
    (hapart.reaches mountWithBlanks) (by rfl)

theorem checkReturn_crlf (t : Text) : checkReturn (crlf t) = checkReturn t := by
  have hlt : (crlf t).contains '<' = t.contains '<' := by
    rw [Bool.eq_iff_iff, List.contains_iff_mem, List.contains_iff_mem, mem_crlf (by decide)]
  rw [checkReturn, checkReturn, occursIn_crlf (by rfl), hlt]

theorem checkModule_crlf (t : Text) : checkModule (crlf t) = checkModule t := by
  rw [checkModule, checkModule, occursIn_crlf (by rfl), occursIn_crlf (by rfl)]

end Contract

/-! ### The signatures of corruption -/

namespace Signature

/-- Whether a text shows the signature. -/
def Shows (s : Signature) (t : Text) : Prop := (s.detect t).isSome = true

/-- A signature is shown by both spellings of a text or by none. -/
def IsEven (s : Signature) : Prop := ∀ t, s.Shows (crlf t) ↔ s.Shows t

theorem holds_eq_occursIn (t part : Text) : t.holds part = (Pattern.text part).occursIn t := by
  rw [Bool.eq_iff_iff, Text.holds_iff_infix, occursIn_iff (isExplicit_text part)]
  simp only [fits_text]
  constructor
  · rintro ⟨u, v, rfl⟩
    exact ⟨u, part, v, List.append_assoc u part v, rfl⟩
  · rintro ⟨u, _, v, rfl, rfl⟩
    exact ⟨u, v, List.append_assoc u _ v⟩

theorem holds_crlf {part : Text} (h : (Pattern.text part).isEvenAnywhere = true) (t : Text) :
    (crlf t).holds part = t.holds part := by
  rw [holds_eq_occursIn, holds_eq_occursIn, occursIn_crlf h]

theorem isEven_detectText {s : Signature} {part : Text} (hs : s.detect = detectText part)
    (h : (Pattern.text part).isEvenAnywhere = true) : s.IsEven := by
  intro t
  rw [Shows, Shows, hs, detectText, detectText, holds_crlf h]

theorem shows_detectPiece {s : Signature} {p : Pattern} (hs : s.detect = detectPiece p) (t : Text) :
    s.Shows t ↔ p.occursIn t = true := by
  rw [Shows, hs, detectPiece, Option.isSome_map]
  rfl

theorem isEven_detectPiece {s : Signature} {p : Pattern} (hs : s.detect = detectPiece p)
    (h : p.isEvenAnywhere = true) : s.IsEven := fun t => by
  rw [shows_detectPiece hs, shows_detectPiece hs, occursIn_crlf h]

theorem isEven_undeclaredSetAnswer : undeclaredSetAnswer.IsEven := fun t => by
  have hcall : setAnswerCall.isEvenAnywhere = true := rfl
  have hsetter : (declaredSetter "setAnswer").isEvenAnywhere = true := rfl
  rw [Shows, Shows]
  dsimp only [undeclaredSetAnswer]
  rw [occursIn_crlf hcall, occursIn_crlf hsetter]

theorem shows_emptyHandlerBody (t : Text) : emptyHandlerBody.Shows t ↔
    ∃ p ∈ emptyHandlers, p.occursIn t = true := by
  rw [Shows]
  dsimp only [emptyHandlerBody]
  rw [List.isSome_findSome?, List.any_eq_true]
  simp only [Option.isSome_map, occursIn]

theorem isEven_emptyHandlerBody : emptyHandlerBody.IsEven := fun t => by
  have heven : ∀ p ∈ emptyHandlers, p.isEvenAnywhere = true := by
    rw [emptyHandlers]
    exact List.forall_mem_cons.mpr ⟨rfl, List.forall_mem_singleton.mpr rfl⟩
  rw [shows_emptyHandlerBody, shows_emptyHandlerBody]
  refine exists_congr fun p => and_congr_right fun hp => ?_
  rw [occursIn_crlf (heven p hp)]

theorem isEven_orphanDrawing : orphanDrawing.IsEven := fun t => by
  have hsvg : (Pattern.text "<svg".toList).isEvenAnywhere = true := rfl
  have hstart : drawingStart.isEvenAnywhere = true := rfl
  have hpiece : (drawingStart.search? (crlf t)).isSome = (drawingStart.search? t).isSome :=
    occursIn_crlf hstart t
  rw [Shows, Shows]
  dsimp only [orphanDrawing]
  rw [holds_crlf hsvg]
  split
  · rfl
  · rw [Option.isSome_map, Option.isSome_map, hpiece]

/-- Blanks up to the end of a line can end with the carriage return before its newline. -/
theorem even_blanks_lineEnd : Condition.Even (Pattern.seq blanks .lineEnd).Begins := by
  intro u v
  constructor
  · rintro ⟨w, r, he, hw, hr, -⟩
    rcases exists_of_crlf_eq he with ⟨w, r, rfl, rfl, rfl⟩ | ⟨w, r, rfl, rfl, rfl⟩
    · have hnil : crlf r = [] := by
        cases hc : crlf r with
        | nil => rfl
        | cons x k =>
          obtain rfl := hr x (by rw [hc]; rfl)
          exact absurd (by rw [hc]; rfl) (head?_crlf_ne_newline r)
      obtain rfl := crlf_eq_nil.mp hnil
      exact ⟨w, [], rfl, forall_mem_of_crlf hw, nofun, trivial⟩
    · have hw' : ∀ x ∈ crlf w, isBlank x = true := fun x hx => hw x (List.mem_append_left _ hx)
      refine ⟨w, '\n' :: r, rfl, forall_mem_of_crlf hw', ?_, trivial⟩
      rintro _ ⟨⟩
      rfl
  · rintro ⟨w, r, rfl, hw, hr, -⟩
    have hcrlf : ∀ x ∈ crlf w, isBlank x = true := forall_mem_crlf (fun _ => rfl) hw
    cases r with
    | nil => exact ⟨crlf w, [], by simp, hcrlf, nofun, trivial⟩
    | cons x r =>
      obtain rfl := hr x rfl
      refine ⟨crlf w ++ ['\r'], '\n' :: crlf r, by simp [crlf_append], ?_, hr, trivial⟩
      simp only [List.forall_mem_append]
      exact ⟨hcrlf, by decide⟩

/-- What comes before the end of the line in the form of an incomplete conditional. -/
def conditionalHead : List Pattern :=
  [word "if", blanks, char '(', many (· != ')'), char ')', blanks, emptyBlock, blanks, word "else",
    blanks, char '{']

theorem isEven_incompleteIfElse : incompleteIfElse.IsEven := by
  have hbegins : Begins (all (conditionalHead ++ [blanks, .lineEnd])) =
      (all conditionalHead).Reaches (Pattern.seq blanks .lineEnd).Begins := reaches_all_append
  have hnothing := Within.holds_nothing (Pattern.seq blanks .lineEnd).Begins
  have heven := even_blanks_lineEnd.reaches (p := all conditionalHead) hnothing (by rfl)
  have h (t : Text) : incompleteIfElse.Shows t ↔ ∃ u v, t = u ++ v ∧
      (all conditionalHead).Reaches (Pattern.seq blanks .lineEnd).Begins u v := by
    rw [shows_detectPiece (p := all (conditionalHead ++ [blanks, .lineEnd])) rfl,
      occursIn_iff_begins (by rfl), hbegins]
  intro t
  rw [h, h]
  exact heven.exists_iff (hnothing.reaches _) (by rfl)

/-- The block of an `else` that is opened at the end of a line is not detected before a carriage
return. -/
theorem not_shows_emptyElseClose (t : Text) : ¬ emptyElseClose.Shows (crlf t) := by
  rw [shows_detectPiece (p := emptyElse) rfl, occursIn_iff_begins rfl]
  simp only [Begins, emptyElse, all, Reaches, word, reaches_text, blanks, indent, many, char,
    beq_iff_eq]
  rintro ⟨u, _, he, _, _, rfl, rfl, b₁, _, rfl, -, _, rfl, b₂, _, rfl, -, _, _, rfl, rfl, i, _, rfl,
    hi, _, r, rfl, rfl, -⟩
  have hsplit : crlf t = (u ++ ('}' :: (b₁ ++ ("else".toList ++ (b₂ ++ '{' :: i))))) ++
      '\n' :: r := by simpa using he
  -- what stands before the newline is the brace or a part of the indentation
  have hlast := getLast?_of_crlf_eq hsplit
  have hmem : '\r' ∈ '{' :: i := by
    refine List.mem_of_getLast? ?_
    rw [← hlast]
    simp only [← List.append_assoc, ← List.cons_append]
    rw [List.getLast?_append_of_ne_nil _ (List.cons_ne_nil _ _)]
  rcases List.mem_cons.mp hmem with h | h
  · exact absurd h (by decide)
  · exact absurd (hi _ h) (by decide)

/-- All signatures but one are shown by both spellings of a text or by none. -/
theorem isEven_of_mem {s : Signature} (hs : s ∈ catalogue) :
    s = emptyElseClose ∨ s.name ≠ emptyElseClose.name ∧ s.IsEven := by
  simp only [catalogue, List.mem_cons, List.not_mem_nil, or_false] at hs
  rcases hs with rfl | rfl | rfl | rfl | rfl | rfl | rfl | rfl | rfl | rfl | rfl
  · exact .inr ⟨by decide, isEven_detectText rfl (by rfl)⟩
  · exact .inr ⟨by decide, isEven_detectText rfl (by rfl)⟩
  · exact .inr ⟨by decide, isEven_detectPiece rfl (by rfl)⟩
  · exact .inr ⟨by decide, isEven_detectPiece rfl (by rfl)⟩
  · exact .inr ⟨by decide, isEven_detectPiece rfl (by rfl)⟩
  · exact .inr ⟨by decide, isEven_undeclaredSetAnswer⟩
  · exact .inl rfl
  · exact .inr ⟨by decide, isEven_incompleteIfElse⟩
  · exact .inr ⟨by decide, isEven_detectPiece rfl (by rfl)⟩
  · exact .inr ⟨by decide, isEven_emptyHandlerBody⟩
  · exact .inr ⟨by decide, isEven_orphanDrawing⟩

end Signature

namespace Contract

/-! ### All checks -/

theorem checkSignatures_eq_nil_iff : checkSignatures t = [] ↔
    ∀ s ∈ Signature.catalogue, ¬ s.Shows t := by
  rw [checkSignatures, List.filterMap_eq_nil_iff]
  refine forall₂_congr fun s _ => ?_
  rw [Option.map_eq_none_iff, Signature.Shows, Bool.not_eq_true, Option.isSome_eq_false_iff,
    Option.isNone_iff_eq_none]

/-- What is reported of a text that opens the block of an `else` at the end of a line. -/
def emptyElseDefect : Defect := .corruption Signature.emptyElseClose.message

/-- The wording of a signature does not depend on the fragment up to where the wordings differ. -/
theorem take_describe {s : Signature} (hs : s ∈ Signature.catalogue) (f : Text) :
    (s.describe f).take 12 = s.message.take 12 := by
  have hplain : ∀ s ∈ Signature.catalogue, '\x7b' ∉ s.message.take 12 := by decide
  exact take_replace (hplain s hs)

theorem name_of_take_message : ∀ s ∈ Signature.catalogue,
    s.message.take 12 = Signature.emptyElseClose.message.take 12 →
      s.name = Signature.emptyElseClose.name := by
  decide

/-- The defect is that of a signature if it is reported alone or nothing is. -/
theorem checkSignatures_or_iff :
    checkSignatures t = [] ∨ checkSignatures t = [emptyElseDefect] ↔
      ∀ s ∈ Signature.catalogue, s.name ≠ Signature.emptyElseClose.name → ¬ s.Shows t := by
  constructor
  · intro h s hs hne hshows
    obtain ⟨f, hf⟩ := Option.isSome_iff_exists.mp hshows
    have hmem : Defect.corruption (s.describe f) ∈ checkSignatures t :=
      List.mem_filterMap.mpr ⟨s, hs, by rw [hf]; rfl⟩
    rcases h with h | h
    · rw [h] at hmem
      cases hmem
    · rw [h, List.mem_singleton] at hmem
      have hdescribe := congrArg (List.take 12) (Defect.corruption.inj hmem)
      rw [take_describe hs] at hdescribe
      exact hne (name_of_take_message s hs hdescribe)
  · intro h
    have hothers {l : List Signature} (hl : l ⊆ Signature.catalogue)
        (hn : ∀ s ∈ l, s.name ≠ Signature.emptyElseClose.name) :
        (l.filterMap fun s => (s.detect t).map fun f => Defect.corruption (s.describe f)) = [] := by
      refine List.filterMap_eq_nil_iff.mpr fun s hs => ?_
      rw [Option.map_eq_none_iff, ← Option.isNone_iff_eq_none, ← Option.isSome_eq_false_iff,
        ← Bool.not_eq_true]
      exact h s (hl hs) (hn s hs)
    have hsplit : Signature.catalogue = Signature.catalogue.take 6 ++
      Signature.emptyElseClose :: Signature.catalogue.drop 7 := rfl
    rw [checkSignatures, hsplit, List.filterMap_append, List.filterMap_cons,
      hothers (List.take_subset _ _) (by decide), hothers (List.drop_subset _ _) (by decide)]
    cases Signature.emptyElseClose.detect t with
    | none => exact .inl rfl
    | some f => exact .inr rfl

theorem checkSignatures_crlf : checkSignatures (crlf t) = [] ↔
    checkSignatures t = [] ∨ checkSignatures t = [emptyElseDefect] := by
  rw [checkSignatures_eq_nil_iff, checkSignatures_or_iff]
  refine forall₂_congr fun s hs => ?_
  rcases Signature.isEven_of_mem hs with rfl | ⟨hne, heven⟩
  · exact iff_of_true (Signature.not_shows_emptyElseClose t) (absurd rfl)
  · rw [heven]
    exact ⟨fun h _ => h, fun h => h hne⟩

theorem checkBalance_crlf : checkBalance (crlf t) = [] ↔ checkBalance t = [] := by
  rw [checkBalance, checkBalance, List.map_eq_nil_iff, List.map_eq_nil_iff, ← List.isEmpty_iff,
    ← List.isEmpty_iff]
  exact iff_of_eq (congrArg (· = true) (isBalanced_crlf t))

theorem corruption_notMem_words (cfg : Settings) (t d : Text) : .corruption d ∉
    checkEntryPoint cfg t ++ checkMount cfg t ++ checkReturn t ++ checkModule t := by
  have hite {c : Prop} [Decidable c] {e : Defect} (he : .corruption d ≠ e) :
      .corruption d ∉ if c then [e] else [] := by
    split <;> simp [he]
  have hite' {c : Prop} [Decidable c] {e : Defect} (he : .corruption d ≠ e) :
      .corruption d ∉ if c then [] else [e] := by
    split <;> simp [he]
  have hentry : .corruption d ∉ checkEntryPoint cfg t := by
    unfold checkEntryPoint
    split
    · exact hite' (c := False) nofun
    · exact List.mem_append.not.mpr (not_or.mpr ⟨hite' nofun, hite nofun⟩)
  have hmount : .corruption d ∉ checkMount cfg t := by
    unfold checkMount
    dsimp only
    split
    · exact hite' (c := False) nofun
    · exact List.mem_append.not.mpr (not_or.mpr ⟨hite nofun, hite' nofun⟩)
  have hmodule : .corruption d ∉ checkModule t :=
    List.mem_append.not.mpr (not_or.mpr ⟨hite nofun, hite nofun⟩)
  simp only [List.mem_append, not_or]
  exact ⟨⟨⟨hentry, hmount⟩, hite' nofun⟩, hmodule⟩

theorem corruption_notMem_checkBalance (t d : Text) : .corruption d ∉ checkBalance t := by
  intro h
  obtain ⟨i, -, hi⟩ := List.mem_map.mp h
  cases hi

/-- The defect of the signature is alone if nothing else is reported. -/
theorem defects_eq_emptyElse_iff : defects .standard t = [emptyElseDefect] ↔
    (checkEntryPoint .standard t ++ checkMount .standard t ++ checkReturn t ++ checkModule t = [] ∧
      checkSignatures t = [emptyElseDefect]) ∧ checkBalance t = [] := by
  rw [defects, List.append_eq_singleton_iff, List.append_eq_singleton_iff]
  have hwords : checkEntryPoint .standard t ++ checkMount .standard t ++ checkReturn t ++
      checkModule t ≠ [emptyElseDefect] := fun h =>
    corruption_notMem_words .standard t _ (h ▸ List.mem_singleton_self _)
  have hbalance : checkBalance t ≠ [emptyElseDefect] := fun h =>
    corruption_notMem_checkBalance t _ (h ▸ List.mem_singleton_self _)
  simp only [hwords, hbalance, false_and, and_false, or_false, false_or]

/-- A text fulfils the contract in the longer spelling if it does in the shorter one, or fails it
there only for the block of an `else` that is opened at the end of a line. -/
theorem defects_crlf_eq_nil_iff : defects .standard (crlf t) = [] ↔
    defects .standard t = [] ∨ defects .standard t = [emptyElseDefect] := by
  rw [defects_eq_emptyElse_iff]
  simp only [defects, List.append_eq_nil_iff, checkEntryPoint_crlf, checkMount_crlf,
    checkReturn_crlf, checkModule_crlf, checkSignatures_crlf, checkBalance_crlf]
  tauto

end Contract

end SnippetGate
