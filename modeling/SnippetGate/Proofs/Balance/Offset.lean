import SnippetGate.Proofs.Balance.Removal
import SnippetGate.Proofs.Balance.Shift

/-!
# The outcome of a scan that starts farther on

A scan that starts in the middle of a text finds what the scan of the rest alone finds, at offsets
that are farther on. Only the issue of a string or a comment that never ends tells a line, and that
line is counted from the beginning of the whole text. Such an issue is added at the end of the scan,
so the walk itself does not know of lines.
-/

namespace SnippetGate

/-- The same cause with `k` lines more before it. -/
def Imbalance.lower (k : Nat) : Imbalance → Imbalance
  | .unterminatedString quote line => .unterminatedString quote (line + k)
  | .unterminatedComment line => .unterminatedComment (line + k)
  | cause => cause

/-- The same issue in a text with `d` characters more before it, which take `k` lines. -/
def Issue.moved (d k : Nat) (i : Issue) : Issue :=
  ⟨(i.cause.shift d).lower k, i.pos + d, i.closerEnd?.map (· + d)⟩

/-- The same outcome in a text with `d` characters more before it, which take `k` lines. -/
def Scan.moved (d k : Nat) (r : Scan) : Scan :=
  ⟨r.issues.map (Issue.moved d k), r.unclosed.map (Frame.shift d), r.closedAt?.map (· + d)⟩

/-- Lines matter to the issues of strings and comments that never end only. -/
theorem Issue.moved_of_kind {i : Issue} (h : i.kind ≠ .unterminatedString) (d k : Nat) :
    i.moved d k = i.shift d := by
  obtain ⟨cause, pos, stop?⟩ := i
  cases cause with
  | unterminatedString quote line => exact absurd rfl h
  | unterminatedComment line => exact absurd rfl h
  | _ => rfl

theorem Text.lineOf_append (p t : Text) (pos : Nat) :
    lineOf (p ++ t) (pos + p.length) = t.lineOf pos + p.count '\n' := by
  rw [lineOf, lineOf, Nat.add_comm pos, List.take_length_add_append, List.count_append]
  omega

namespace ScanState

variable {o : ScanOptions} {p t : Text} {i d : Nat} {s : ScanState}

/-! ### Before the end of a walk -/

/-- It is known where the present string or comment begins, and none is reported yet. -/
structure Pending (s : ScanState) : Prop where
  begun : s.stack.mode ≠ .normal → s.stack.modeStart.isSome = true
  kinds : ∀ e ∈ s.issues, e.kind ≠ .unterminatedString

namespace Pending

theorem report (h : Pending s) {e : Issue} (he : (e.kind == .unterminatedString) = false) :
    Pending (s.report e) :=
  { h with kinds := List.forall_mem_cons.mpr ⟨ne_of_beq_false he, h.kinds⟩ }

theorem closeBracket (h : Pending s) (opener x : Char) : Pending (s.closeBracket opener x) := by
  unfold ScanState.closeBracket
  split
  · exact h.report rfl
  · split
    · exact ⟨h.begun, h.kinds⟩
    · exact ⟨h.begun, (h.report rfl).kinds⟩

theorem closeTag (h : Pending s) (name : Text) (stop : Nat) : Pending (s.closeTag name stop) := by
  unfold ScanState.closeTag
  split
  · refine ⟨h.begun, List.forall_mem_append.mpr ⟨fun e he => ?_, h.kinds⟩⟩
    obtain ⟨f, -, rfl⟩ := List.mem_map.mp (List.mem_reverse.mp he)
    nofun
  · split
    · exact h.report rfl
    · split
      · exact ⟨h.begun, (h.report rfl).kinds⟩
      · exact h.report rfl

theorem beginChildren (h : Pending s) : Pending s.beginChildren := by
  unfold ScanState.beginChildren
  split
  · exact h
  · refine ⟨h.begun, fun e he => ?_⟩
    obtain ⟨e', he', rfl⟩ := List.mem_map.mp he
    rw [Issue.kind_withOpened]
    exact h.kinds e' he'

theorem apply (h : Pending s) (m : Move) : Pending (m.apply s) := by
  cases m with
  | pass n => exact ⟨h.begun, h.kinds⟩
  | enter mode quote n => exact ⟨fun _ => rfl, h.kinds⟩
  | leave n => exact ⟨fun hm => absurd rfl hm, h.kinds⟩
  | openBracket x => exact ⟨h.begun, h.kinds⟩
  | openTag name phase n => exact ⟨h.begun, h.kinds⟩
  | closeBracket opener x =>
    exact ⟨(h.closeBracket opener x).begun, (h.closeBracket opener x).kinds⟩
  | closeTag name n => exact ⟨(h.closeTag name _).begun, (h.closeTag name _).kinds⟩
  | endTag n => exact ⟨h.begun, h.kinds⟩
  | beginChildren => exact ⟨h.beginChildren.begun, h.beginChildren.kinds⟩
  | cutShort top => exact ⟨h.begun, (h.report rfl).kinds⟩
  | stray top x => exact ⟨h.begun, (h.report rfl).kinds⟩

end Pending

theorem pending_run (o : ScanOptions) (t : Text) (i : Nat) :
    Pending (run o (Scan.start t i)) := by
  refine (walks_run o _).keeps (fun {s u} hst hs => ?_)
    ⟨fun hm => absurd rfl hm, List.forall_mem_nil _⟩
  obtain ⟨x, rest, -, hstack, hissues⟩ := hst.exists_apply
  have hmove := hs.apply (s.move o x rest)
  exact ⟨hstack ▸ hmove.begun, hissues ▸ hmove.kinds⟩

/-! ### The end of a walk -/

theorem openText_shift (h : Pending s) (p t : Text) :
    (s.shift p.length).openText (p ++ t) =
      (s.openText t).map (Issue.moved p.length (p.count '\n')) := by
  obtain ⟨cursor, ⟨frames, mode, quote, modeStart⟩, issues, opened, closedAt?⟩ := s
  have hline (start : Nat) : Text.lineOf (p ++ t) (start + p.length) =
      t.lineOf start + p.count '\n' := Text.lineOf_append p t start
  cases mode with
  | normal => rfl
  | lineComment => rfl
  | string =>
    have hmode : Mode.string ≠ .normal := by decide
    obtain ⟨start, rfl⟩ := Option.isSome_iff_exists.mp (h.begun hmode)
    simp [openText, shift, BracketStack.shift, Issue.moved, Imbalance.shift, Imbalance.lower, hline]
  | blockComment =>
    have hmode : Mode.blockComment ≠ .normal := by decide
    obtain ⟨start, rfl⟩ := Option.isSome_iff_exists.mp (h.begun hmode)
    simp [openText, shift, BracketStack.shift, Issue.moved, Imbalance.shift, Imbalance.lower, hline]

theorem openFrames_shift (s : ScanState) (d k : Nat) :
    (s.shift d).openFrames = s.openFrames.map (Issue.moved d k) := by
  unfold openFrames
  have hlast : (s.shift d).stack.frames.getLast? = s.stack.frames.getLast?.map (Frame.shift d) :=
    List.getLast?_map
  rw [hlast]
  cases s.stack.frames.getLast? with
  | none => rfl
  | some outermost =>
    simp [shift, BracketStack.shift, Issue.moved, Imbalance.shift, Imbalance.lower,
      List.map_reverse]

theorem outcome_shift (h : Pending s) (p t : Text) :
    (s.shift p.length).outcome (p ++ t) =
      (s.outcome t).moved p.length (p.count '\n') := by
  have hissues : (s.shift p.length).issues.reverse =
      s.issues.reverse.map (Issue.moved p.length (p.count '\n')) := by
    rw [List.map_reverse]
    refine congrArg List.reverse (List.map_congr_left fun e he => ?_)
    exact (Issue.moved_of_kind (h.kinds e he) _ _).symm
  have hframes : (s.shift p.length).stack.frames.reverse =
      s.stack.frames.reverse.map (Frame.shift p.length) := List.map_reverse.symm
  have hclosed : (s.shift p.length).closedAt? = s.closedAt?.map (· + p.length) := rfl
  unfold outcome
  rw [hissues, hframes, hclosed, Option.isSome_map, openText_shift h,
    openFrames_shift s _ (p.count '\n')]
  split
  · rfl
  · simp [Scan.moved]

end ScanState

/-- The scan of a text behind a prefix is the scan of the rest, at offsets and on lines farther on. -/
theorem Scan.ofTextWith_append (p t : Text) (o : ScanOptions) :
    ofTextWith (p ++ t) p.length { o with limit := (p ++ t).length } =
      (ofTextWith t 0 { o with limit := t.length }).moved p.length (p.count '\n') := by
  have hlimit : ({ o with limit := (p ++ t).length } : ScanOptions) =
      ScanOptions.shift p.length { o with limit := t.length } := by
    rw [List.length_append, Nat.add_comm]
    rfl
  have hstart : start (p ++ t) p.length = (start t 0).shift p.length := start_append p t 0
  rw [ofTextWith, ofTextWith, hlimit, hstart, ScanState.run_shift]
  exact ScanState.outcome_shift (ScanState.pending_run _ t 0) p t

end SnippetGate
