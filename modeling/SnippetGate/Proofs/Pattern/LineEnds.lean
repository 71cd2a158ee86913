import SnippetGate.Proofs.Pattern.Fits
import SnippetGate.Proofs.Text.LineEnds

/-!
# Patterns and the spelling of line ends

Most patterns find the same pieces in a text whether or not a carriage return stands before each
newline: they ask for blanks, and a carriage return is one, or for characters that are neither. A
piece of the longer text could still end within a line end. So what is compared is where a pattern
leads, for a given condition on the place where its piece ends, and what that condition says of the
places within line ends decides whether the comparison goes through.
-/

namespace SnippetGate

open Text

namespace Pattern

/-- A condition on a place of a text, said of the text before it and behind it. -/
abbrev Condition := Text → Text → Prop

/-- Some piece of the pattern begins at the place and ends where the condition holds. Of repeated
patterns, of references to a group and of the end of a text nothing is said here. -/
def Reaches : Pattern → Condition → Condition
  | .empty, K, u, v => K u v
  | .one p, K, u, v => ∃ x r, v = x :: r ∧ p x = true ∧ K (u ++ [x]) r
  | .run p _, K, u, v => ∃ w r, v = w ++ r ∧ (∀ x ∈ w, p x = true) ∧ K (u ++ w) r
  | .seq a b, K, u, v => a.Reaches (b.Reaches K) u v
  | .alt a b, K, u, v => a.Reaches K u v ∨ b.Reaches K u v
  | .group _ a, K, u, v => a.Reaches K u v
  | .notAhead a, K, u, v => ¬ a.Reaches (fun _ _ => True) u v ∧ K u v
  | .notAfter p, K, u, v => (∀ x ∈ u.getLast?, p x = false) ∧ K u v
  | .lineStart, K, u, v => (∀ x ∈ u.getLast?, x = '\n') ∧ K u v
  | .lineEnd, K, u, v => (∀ x ∈ v.head?, x = '\n') ∧ K u v
  | .wordEdge, K, u, v => u.getLast?.any isWord ≠ v.head?.any isWord ∧ K u v
  | _, _, _, _ => False

/-- Whether `Reaches` says where the pieces of a pattern end. -/
def isDirect : Pattern → Bool
  | .seq a b => a.isDirect && b.isDirect
  | .alt a b => a.isDirect && b.isDirect
  | .group _ a => a.isDirect
  | .notAhead a => a.isDirect
  | .star _ _ | .again _ | .ahead _ | .textEnd => false
  | _ => true

variable {p a b : Pattern} {K K' : Condition} {u v w t : Text} {n : Nat}
  {κ : List (Nat × Capture)}

/-- The condition, said of a place inside of a pattern. -/
def Condition.At (K : Condition) (s : Progress) : Prop := K s.cursor.before.reverse s.cursor.after

theorem leads_congr {s : Progress} {L L' : Progress → Prop} (h : ∀ s, L s ↔ L' s) :
    p.Leads s L ↔ p.Leads s L' := by
  simp only [Leads, h]

/-- A pattern leads to a condition if it reaches it. -/
theorem leads_iff_reaches (hp : p.isDirect = true) {s : Progress} :
    p.Leads s K.At ↔ (p.Reaches K).At s := by
  induction p generalizing s K with
  | empty => exact leads_empty
  | one q =>
    obtain ⟨⟨n, l, t⟩, κ⟩ := s
    simp [leads_one, Condition.At, Reaches]
  | run q greedy =>
    obtain ⟨⟨n, l, t⟩, κ⟩ := s
    simp [leads_run, Condition.At, Reaches]
  | seq a b iha ihb =>
    rw [isDirect, Bool.and_eq_true] at hp
    rw [leads_seq, leads_congr fun _ => ihb hp.2, iha hp.1]
    rfl
  | alt a b iha ihb =>
    rw [isDirect, Bool.and_eq_true] at hp
    rw [leads_alt, iha hp.1, ihb hp.2]
    rfl
  | group k a ih =>
    have hgroup : (group k a).Leads s K.At ↔ a.Leads s K.At := by simp [Leads, ends]; rfl
    rw [hgroup, ih hp]
    rfl
  | notAhead a ih =>
    have hnone : a.Leads s (fun _ => True) ↔ (a.Reaches fun _ _ => True).At s :=
      ih (K := fun _ _ => True) hp
    rw [leads_notAhead, hnone]
    rfl
  | notAfter q =>
    obtain ⟨⟨n, l, t⟩, κ⟩ := s
    simp [leads_notAfter, Condition.At, Reaches]
  | lineStart =>
    have hstart : lineStart.Leads s K.At ↔ s.cursor.atLineStart = true ∧ K.At s := by
      simp [Leads, ends]
    rw [hstart, atLineStart_iff]
    rfl
  | lineEnd =>
    have hend : lineEnd.Leads s K.At ↔ s.cursor.atLineEnd = true ∧ K.At s := by
      simp [Leads, ends]
    rw [hend, atLineEnd_iff]
    rfl
  | wordEdge =>
    rw [leads_wordEdge, Cursor.atWordEdge, Cursor.isAfter_eq_any, Cursor.isBefore_eq_any,
      bne_iff_ne]
    rfl
  | star | again | ahead | textEnd => cases hp

/-- A piece of the pattern begins at the place. -/
def Begins (p : Pattern) : Condition := p.Reaches fun _ _ => True

theorem leads_iff_begins (hp : p.isDirect = true) {u v : Text} :
    (p.Leads ⟨⟨n, u.reverse, v⟩, κ⟩ fun _ => True) ↔ p.Begins u v := by
  have h : (p.Leads ⟨⟨n, u.reverse, v⟩, κ⟩ fun _ => True) ↔
      (p.Reaches fun _ _ => True).At ⟨⟨n, u.reverse, v⟩, κ⟩ :=
    leads_iff_reaches (K := fun _ _ => True) hp
  rw [h, Condition.At, List.reverse_reverse]
  rfl

theorem occursIn_iff_begins (hp : p.isDirect = true) :
    p.occursIn t = true ↔ ∃ u v, t = u ++ v ∧ p.Begins u v := by
  rw [occursIn, isSome_search?]
  simp only [leads_iff_begins hp]

theorem reaches_text {w : Text} :
    (text w).Reaches K u v ↔ ∃ r, v = w ++ r ∧ K (u ++ w) r := by
  have hcons (x : Char) (w u v : Text) : (text (x :: w)).Reaches K u v ↔
      (char x).Reaches ((text w).Reaches K) u v := by
    cases w with
    | nil => exact Iff.rfl
    | cons y w => exact Iff.rfl
  induction w generalizing u v with
  | nil => simp [text, all, Reaches]
  | cons x w ih =>
    simp only [hcons, char, Reaches, ih, beq_iff_eq]
    constructor
    · rintro ⟨_, _, rfl, rfl, r, rfl, h⟩
      exact ⟨r, rfl, by simpa using h⟩
    · rintro ⟨r, rfl, h⟩
      exact ⟨x, w ++ r, rfl, rfl, r, rfl, by simpa using h⟩

theorem reaches_all_append {ps qs : List Pattern} :
    (all (ps ++ qs)).Reaches K = (all ps).Reaches ((all qs).Reaches K) := by
  induction ps with
  | nil => rfl
  | cons p ps ih =>
    cases ps with
    | nil => cases qs <;> rfl
    | cons p' ps => exact congrArg p.Reaches ih

/-! ### Within a line end -/

/-- What is known of a condition within a line end. -/
structure Within where
  /-- It does not hold there. -/
  never : Bool := false
  /-- If it holds there, it holds behind the line end. -/
  settles : Bool := false
  /-- If it holds there, it holds before the line end. -/
  retreats : Bool := false
  /-- If it holds behind the line end, it holds there. -/
  recedes : Bool := false

/-- What is known of a condition is true. -/
structure Within.Holds (k : Within) (K : Condition) : Prop where
  never : k.never = true → ∀ u v, ¬ K (u ++ ['\r']) ('\n' :: v)
  settles : k.settles = true → ∀ u v, K (u ++ ['\r']) ('\n' :: v) → K (u ++ ['\r', '\n']) v
  retreats : k.retreats = true → ∀ u v, K (u ++ ['\r']) ('\n' :: v) → K u ('\r' :: '\n' :: v)
  recedes : k.recedes = true → ∀ u v, K (u ++ ['\r', '\n']) v → K (u ++ ['\r']) ('\n' :: v)

/-- What is known of the condition that always holds. -/
def Within.free : Within := { settles := true, retreats := true, recedes := true }

/-- What is known of a condition that does not hold within a line end. -/
def Within.apart : Within := { never := true, settles := true, retreats := true }

theorem Within.holds_free : free.Holds fun _ _ => True where
  never := nofun
  settles _ _ _ _ := trivial
  retreats _ _ _ _ := trivial
  recedes _ _ _ _ := trivial

theorem Within.holds_apart (h : ∀ u v, ¬ K (u ++ ['\r']) ('\n' :: v)) : apart.Holds K where
  never _ := h
  settles _ u v hr := absurd hr (h u v)
  retreats _ u v hr := absurd hr (h u v)
  recedes := nofun

/-- What is known of the beginning of a piece if something is known of its end. -/
def within : Pattern → Within → Within
  | .empty, k => k
  | .one p, k => if p '\n' then { retreats := p '\r' && k.recedes } else .apart
  | .run p _, k =>
    { never := !p '\n' && k.never
      settles := k.settles
      retreats := p '\r'
      recedes := p '\n' }
  | .seq a b, k => a.within (b.within k)
  | .alt a b, k =>
    { never := (a.within k).never && (b.within k).never
      settles := (a.within k).settles && (b.within k).settles
      retreats := (a.within k).retreats && (b.within k).retreats
      recedes := (a.within k).recedes && (b.within k).recedes }
  | .group _ a, k => a.within k
  | .notAfter _, k => if k.never then .apart else {}
  | .lineStart, _ | .wordEdge, _ => .apart
  | _, _ => {}

theorem Within.holds_nothing (K : Condition) : ({} : Within).Holds K := ⟨nofun, nofun, nofun, nofun⟩

theorem Within.Holds.one {k : Within} (h : k.Holds K) (q : Char → Bool) :
    ((one q).within k).Holds ((one q).Reaches K) := by
  rw [within]
  split
  · refine ⟨nofun, nofun, ?_, nofun⟩
    rintro hk u v ⟨x, r, he, -, hr⟩
    obtain ⟨rfl, rfl⟩ := List.cons.inj he
    rw [Bool.and_eq_true] at hk
    exact ⟨'\r', '\n' :: v, rfl, hk.1, h.recedes hk.2 u v (by simpa using hr)⟩
  · next hq =>
    refine holds_apart ?_
    rintro u v ⟨x, r, he, hx, -⟩
    obtain ⟨rfl, -⟩ := List.cons.inj he
    exact hq hx

theorem Within.Holds.run {k : Within} (h : k.Holds K) (q : Char → Bool) (greedy : Bool) :
    ((run q greedy).within k).Holds ((run q greedy).Reaches K) where
  never hk u v := by
    simp only [within, Bool.and_eq_true, Bool.not_eq_true'] at hk
    rintro ⟨w, r, he, hw, hr⟩
    cases w with
    | nil =>
      obtain rfl : '\n' :: v = r := he
      rw [List.append_nil] at hr
      exact h.never hk.2 u v hr
    | cons x w =>
      obtain ⟨rfl, -⟩ := List.cons.inj he
      simp [hw '\n' List.mem_cons_self] at hk
  settles hk u v := by
    rintro ⟨w, r, he, hw, hr⟩
    cases w with
    | nil =>
      obtain rfl : '\n' :: v = r := he
      rw [List.append_nil] at hr
      exact ⟨[], v, rfl, nofun, by simpa using h.settles hk u v hr⟩
    | cons x w =>
      obtain ⟨rfl, rfl⟩ := List.cons.inj he
      exact ⟨w, r, rfl, (List.forall_mem_cons.mp hw).2, by simpa using hr⟩
  retreats hk u v := by
    rintro ⟨w, r, he, hw, hr⟩
    exact ⟨'\r' :: w, r, by rw [he, List.cons_append], List.forall_mem_cons.mpr ⟨hk, hw⟩,
      by simpa using hr⟩
  recedes hk u v := by
    rintro ⟨w, r, rfl, hw, hr⟩
    exact ⟨'\n' :: w, r, rfl, List.forall_mem_cons.mpr ⟨hk, hw⟩, by simpa using hr⟩

theorem Within.Holds.reaches {k : Within} (h : k.Holds K) (p : Pattern) :
    (p.within k).Holds (p.Reaches K) := by
  induction p generalizing k K with
  | empty => exact h
  | one q => exact h.one q
  | run q greedy => exact h.run q greedy
  | seq a b iha ihb => exact iha (ihb h)
  | alt a b iha ihb =>
    have ha := iha h
    have hb := ihb h
    constructor <;> intro hk u v hr <;> simp only [within, Bool.and_eq_true] at hk
    · exact hr.elim (ha.never hk.1 u v) (hb.never hk.2 u v)
    · exact hr.imp (ha.settles hk.1 u v) (hb.settles hk.2 u v)
    · exact hr.imp (ha.retreats hk.1 u v) (hb.retreats hk.2 u v)
    · exact hr.imp (ha.recedes hk.1 u v) (hb.recedes hk.2 u v)
  | group n a ih => exact ih h
  | notAfter q =>
    rw [within]
    split
    · next hk => exact holds_apart fun u v hr => h.never hk u v hr.2
    · exact holds_nothing _
  | lineStart => exact holds_apart fun u v hr => absurd (hr.1 '\r' (by simp)) (by decide)
  | wordEdge =>
    refine holds_apart fun u v hr => hr.1 ?_
    rw [List.getLast?_concat]
    rfl
  | _ => exact holds_nothing _

/-! ### One condition for both spellings -/

/-- The condition does not depend on the spelling of line ends. -/
def Condition.Even (K : Condition) : Prop := ∀ u v, K (crlf u) (crlf v) ↔ K u v

/-- Whether the pattern leads to a condition of which this is known without regard to the spelling
of line ends, if the condition is that way. -/
def isEven : Pattern → Within → Bool
  | .one p, k => !p '\r' && !p '\n' || p '\r' && p '\n' && k.settles && k.recedes
  | .run p _, k => (!p '\n' || p '\r') && (!p '\r' || k.retreats)
  | .seq a b, k => a.isEven (b.within k) && b.isEven k
  | .alt a b, k => a.isEven k && b.isEven k
  | .group _ a, k => a.isEven k
  | .notAhead a, _ => a.isEven .free
  | .lineEnd, _ => false
  | _, _ => true

theorem even_one {q : Char → Bool} {k : Within} (hk : k.Holds K) (hK : K.Even)
    (hq : (one q).isEven k = true) : ((one q).Reaches K).Even := by
  simp only [isEven, Bool.or_eq_true, Bool.and_eq_true, Bool.not_eq_true'] at hq
  intro u v
  cases v with
  | nil => simp [Reaches]
  | cons x v =>
    by_cases hx : x = '\n'
    · subst hx
      have hline : K (crlf u ++ ['\r', '\n']) (crlf v) ↔ K (u ++ ['\n']) v := by
        rw [← crlf_concat_newline, hK]
      simp only [crlf_newline, Reaches, List.cons.injEq]
      constructor
      · rintro ⟨_, _, ⟨rfl, rfl⟩, hx, hr⟩
        rcases hq with ⟨h, -⟩ | ⟨⟨⟨-, hn⟩, hset⟩, -⟩
        · rw [hx] at h
          cases h
        · exact ⟨_, _, ⟨rfl, rfl⟩, hn, hline.mp (hk.settles hset _ _ hr)⟩
      · rintro ⟨_, _, ⟨rfl, rfl⟩, hx, hr⟩
        rcases hq with ⟨-, h⟩ | ⟨⟨⟨hc, -⟩, -⟩, hrec⟩
        · rw [hx] at h
          cases h
        · exact ⟨_, _, ⟨rfl, rfl⟩, hc, hk.recedes hrec _ _ (hline.mpr hr)⟩
    · have hchar : K (crlf u ++ [x]) (crlf v) ↔ K (u ++ [x]) v := by
        rw [← crlf_concat hx, hK]
      simp [crlf_cons hx, Reaches, hchar]

theorem even_run {q : Char → Bool} {greedy : Bool} {k : Within} (hk : k.Holds K) (hK : K.Even)
    (hq : (run q greedy).isEven k = true) : ((run q greedy).Reaches K).Even := by
  simp only [isEven, Bool.or_eq_true, Bool.and_eq_true, Bool.not_eq_true'] at hq
  obtain ⟨hclass, hplace⟩ := hq
  intro u v
  constructor
  · rintro ⟨w, r, he, hw, hr⟩
    rcases exists_of_crlf_eq he with ⟨w, r, rfl, rfl, rfl⟩ | ⟨w, r, rfl, rfl, rfl⟩
    · rw [← crlf_append, hK] at hr
      exact ⟨w, r, rfl, forall_mem_of_crlf hw, hr⟩
    · -- a piece that ends within a line end is taken to end before it
      rw [← List.append_assoc, ← crlf_append] at hr
      have hr := hk.retreats (hplace.resolve_left (by simp [hw '\r' (by simp)])) _ _ hr
      rw [← crlf_newline, hK] at hr
      exact ⟨w, '\n' :: r, rfl,
        forall_mem_of_crlf fun x hx => hw x (List.mem_append_left _ hx), hr⟩
  · rintro ⟨w, r, rfl, hw, hr⟩
    have hn (h : q '\n' = true) : q '\r' = true := hclass.resolve_left (by simp [h])
    refine ⟨crlf w, crlf r, crlf_append w r, forall_mem_crlf hn hw, ?_⟩
    rwa [← crlf_append, hK]

/-- Where an even pattern leads does not depend on the spelling of line ends. -/
theorem Condition.Even.reaches {k : Within} (hK : K.Even) (hk : k.Holds K)
    (hp : p.isEven k = true) : (p.Reaches K).Even := by
  induction p generalizing k K with
  | empty => exact hK
  | one q => exact even_one hk hK hp
  | run q greedy => exact even_run hk hK hp
  | seq a b iha ihb =>
    rw [isEven, Bool.and_eq_true] at hp
    exact iha (ihb hK hk hp.2) (hk.reaches b) hp.1
  | alt a b iha ihb =>
    rw [isEven, Bool.and_eq_true] at hp
    exact fun u v => or_congr (iha hK hk hp.1 u v) (ihb hK hk hp.2 u v)
  | group n a ih => exact ih hK hk hp
  | notAhead a ih =>
    -- a piece that must not follow may end anywhere
    have ha := ih (K := fun _ _ => True) (fun _ _ => Iff.rfl) Within.holds_free hp
    exact fun u v => and_congr (not_congr (ha u v)) (hK u v)
  | notAfter q =>
    intro u v
    rw [Reaches, Reaches, getLast?_crlf, hK]
  | lineStart =>
    intro u v
    rw [Reaches, Reaches, getLast?_crlf, hK]
  | wordEdge =>
    intro u v
    have hhead : (crlf v).head?.any isWord = v.head?.any isWord := by
      rw [head?_crlf]
      cases v with
      | nil => rfl
      | cons x v =>
        by_cases hx : x = '\n'
        · subst hx
          rfl
        · simp [hx]
    rw [Reaches, Reaches, getLast?_crlf, hhead, hK]
  | lineEnd => cases hp
  | star | again | ahead | textEnd => exact fun _ _ => Iff.rfl

/-- Whether the pattern finds the same pieces in both spellings of a text. -/
def isEvenAnywhere (p : Pattern) : Bool :=
  p.isDirect && p.isEven .free && (p.within .free).retreats

theorem Begins.even (hp : p.isEvenAnywhere = true) : Condition.Even p.Begins := by
  simp only [isEvenAnywhere, Bool.and_eq_true] at hp
  exact Condition.Even.reaches (fun _ _ => Iff.rfl) Within.holds_free hp.1.2

/-- Both spellings of a text have a place for an even condition, if it does not hold within a line
end without holding before it. -/
theorem Condition.Even.exists_iff {k : Within} (hK : K.Even) (hk : k.Holds K)
    (hs : k.retreats = true) :
    (∃ u v, crlf t = u ++ v ∧ K u v) ↔ ∃ u v, t = u ++ v ∧ K u v := by
  constructor
  · rintro ⟨_, _, he, h⟩
    rcases exists_of_crlf_eq he with ⟨u, v, rfl, rfl, rfl⟩ | ⟨u, v, rfl, rfl, rfl⟩
    · exact ⟨u, v, rfl, (hK u v).mp h⟩
    · -- what begins within a line end begins before it as well
      have h := hk.retreats hs _ _ h
      rw [← crlf_newline, hK] at h
      exact ⟨u, '\n' :: v, rfl, h⟩
  · rintro ⟨u, v, rfl, h⟩
    exact ⟨crlf u, crlf v, crlf_append u v, (hK u v).mpr h⟩

/-- An even pattern occurs in both spellings of a text or in none. -/
theorem occursIn_crlf (hp : p.isEvenAnywhere = true) (t : Text) :
    p.occursIn (crlf t) = p.occursIn t := by
  have heven := Begins.even hp
  simp only [isEvenAnywhere, Bool.and_eq_true] at hp
  rw [Bool.eq_iff_iff, occursIn_iff_begins hp.1.1, occursIn_iff_begins hp.1.1]
  exact heven.exists_iff (Within.holds_free.reaches p) hp.2

end Pattern

end SnippetGate
