import SnippetGate.Contract.Vocabulary
import SnippetGate.Pattern.Tag
import SnippetGate.Repair.Basic

/-!
# Duplicated endings

Generated snippets tend to end several times: closers after the mount call, the end of the
component once more, a second end of the returned value, closing tags after it.
-/

namespace SnippetGate.Repair

open Pattern

/-! ### After the mount call -/

/-- Nothing but closers, blanks and fences. -/
def closingJunk : Pattern :=
  .star (any [.one isBlank, .one (fun c => c == ')' || c == ']' || c == '}' || c == ';'),
    closingTag, fragmentClose, word "\x60\x60\x60"]) true

/-- What follows the last mount call, if it is closing junk. -/
def tailJunk? (cfg : Settings) (t : Text) : Option Text :=
  match cfg.mountCall.findLast? t with
  | none => none
  | some m =>
    let tail := m.last.cursor.after
    if !Text.allBlank tail && closingJunk.matchesAll tail then some (Text.trim tail) else none

/-- A text cut after the last mount call if only junk follows. -/
def withoutTailJunk (cfg : Settings) (t : Text) : Text :=
  match cfg.mountCall.findLast? t, tailJunk? cfg t with
  | some m, some _ => t.take m.stop
  | _, _ => t

/-- No closing junk after the mount call. -/
def stripTail (cfg : Settings) : Repair :=
  sure "strip_tail_after_mount" .duplication (tailJunk? cfg) (withoutTailJunk cfg)

/-! ### The end of the component -/

/-- The end of a component: closing tags, the end of the returned value and of the body. The
group leaves out the blanks after it. -/
def trailingUnit : Pattern :=
  all [.group 1 (all [.star (.seq blanks closingTag) true, blanks, char ')', blanks,
      opt (char ';'), blanks, char '}', indent, opt (char ';')]),
    blanks, .textEnd]

/-- How far back a duplicated end is looked for. -/
@[irreducible] def tailWindow : Nat := 2000

/-- A text without its blanks. -/
def squash (t : Text) : Text := t.filter fun c => !isBlank c

/-- The offsets of an end that repeats what stands before it, before the last mount call. -/
def duplicateUnit? (cfg : Settings) (t : Text) : Option (Nat × Nat) :=
  let boundary := ((cfg.mountCall.findLast? t).map Match.start).getD t.length
  let offset := boundary - tailWindow
  let head := t.slice offset boundary
  match trailingUnit.search? head with
  | none => none
  | some m =>
    let unit := squash (m.group 1)
    if !unit.isEmpty && unit.isSuffixOf (squash (head.take m.start)) then
      some (offset + m.start, offset + m.groupStop 1)
    else none

/-- The repeated end. -/
def duplicateUnitText? (cfg : Settings) (t : Text) : Option Text :=
  (duplicateUnit? cfg t).map fun (i, j) => Text.trim (t.slice i j)

/-- A text without up to `n` repeated ends. -/
def withoutDuplicates (cfg : Settings) : Nat → Text → Text
  | 0, t => t
  | n + 1, t =>
    match duplicateUnit? cfg t with
    | none => t
    | some (i, j) => withoutDuplicates cfg n (t.take i ++ t.drop j)

/-- How many repeated ends are taken away. -/
def duplicateRounds : Nat := 10

/-- No repeated ends of the component. -/
def collapseUnits (cfg : Settings) : Repair :=
  sure "collapse_duplicate_closers" .duplication (duplicateUnitText? cfg)
    (withoutDuplicates cfg duplicateRounds)

/-! ### The end of the returned value -/

/-- A line that ends the returned value. -/
def returnClose : Pattern := all [char '\n', indent, word ");", indent]

/-- A line that ends a block. -/
def blockCloseAhead : Pattern := .ahead (all [char '\n', indent, char '}'])

/-- Several ends of the returned value. The group is the first. -/
def doubledReturnClose : Pattern :=
  all [.group 1 returnClose, plus returnClose, blockCloseAhead]

/-- One end of the returned value. -/
def collapseReturnClose : Repair :=
  ofPattern "collapse_duplicate_return_close" .duplication doubledReturnClose (·.group 1)

/-- Lines of closing tags after the end of the returned value. The group is that end. -/
def orphanClosers : Pattern :=
  all [.group 1 returnClose, plus (all [char '\n', indent, closingTag, indent]),
    blockCloseAhead]

/-- No closing tags after the end of the returned value. -/
def stripOrphanClosers : Repair :=
  ofPattern "strip_orphan_closing_tags" .duplication orphanClosers (·.group 1)

end SnippetGate.Repair
