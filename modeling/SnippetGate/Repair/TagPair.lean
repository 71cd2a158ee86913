import SnippetGate.Repair.Basic

/-!
# Mending pairs of tags

A closing tag without an opener is dropped. A closing tag that skips an open element gets the
closing tag of that element before it. Any other closing tag of the wrong name is renamed.
-/

namespace SnippetGate.Repair

/-- The first issue about a closing tag. -/
def tagIssue? (t : Text) : Option Issue := (Scan.ofText t).issues.find? Issue.isAboutClosingTag

/-- A text without the part between two offsets, and without its line if nothing else is on it. -/
def dropToken (t : Text) (i j : Nat) : Text :=
  let lineStart := t.lineStart i
  let lineEnd := t.lineEnd j
  if Text.allBlank (t.slice lineStart i ++ t.slice j lineEnd) then
    t.take (lineStart - 1) ++ t.drop lineEnd
  else t.take i ++ t.drop j

/-- The closing tag of a frame. -/
def closerOf (f : Frame) : Text := (Closer.tag f.token).display

/-- A text with one issue about a closing tag mended. -/
def mendTag (t : Text) (i : Issue) : Text :=
  let stop := i.closerEnd?.getD i.pos
  match i.opener? with
  | none => dropToken t i.pos stop
  | some f =>
    t.take i.pos ++ closerOf f ++ t.drop (if i.closesDeeper then i.pos else stop)

/-- A text with up to `n` issues about closing tags mended. -/
def mendTags : Nat → Text → Text
  | 0, t => t
  | n + 1, t =>
    match tagIssue? t with
    | none => t
    | some i =>
      let mended := mendTag t i
      if mended = t then t else mendTags n mended

/-- Mend the pairs of tags. -/
def mendTagPairs (cfg : Settings) : Repair :=
  sure "repair_tag_pairs" .tagPair (fun t => (tagIssue? t).map Issue.message)
    (mendTags cfg.maxTagFixes.toNat)

end SnippetGate.Repair
