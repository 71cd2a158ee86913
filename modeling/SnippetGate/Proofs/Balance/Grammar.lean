import SnippetGate.Balance.Frame
import SnippetGate.Proofs.Balance.Tags
import SnippetGate.Proofs.Text.Cursor

/-!
# The grammar of balanced texts

A balanced text is script. Script is a sequence of strings, comments, brackets around script,
elements and plain characters. An element is a tag with attributes and, unless it closes itself or
is void, markup and a closing tag. Attributes and markup are sequences too: braces around script
stand in both, strings among attributes, and elements in markup.

The grammar looks at a text where it stands: a `<` begins an element only where an expression can
follow what is before it, and a comment at the very end of the text needs no newline.
-/

namespace SnippetGate

/-- The inside of a string that the quote `q` ends. A backslash takes the next character with
it. -/
inductive IsStringBody (q : Char) : Text → Prop
  | nil : IsStringBody q []
  | plain {x : Char} {r : Text} : x ≠ q → x ≠ '\\' → IsStringBody q r → IsStringBody q (x :: r)
  | escape {x : Char} {r : Text} : IsStringBody q r → IsStringBody q ('\\' :: x :: r)

theorem IsStringBody.append {q : Char} {a b : Text} (ha : IsStringBody q a)
    (hb : IsStringBody q b) : IsStringBody q (a ++ b) := by
  induction ha with
  | nil => exact hb
  | plain hq hbs _ ih => exact .plain hq hbs ih
  | escape _ ih => exact .escape ih

namespace Grammar

/-- The quotes of each context. -/
def IsQuote : Context → Char → Prop
  | .script, q => q = '\x22' ∨ q = '\x27' ∨ q = '\x60'
  | .attrs, q => q = '\x22' ∨ q = '\x27'
  | .markup, _ => False

/-- The brackets of each context. -/
def IsPair : Context → Char → Char → Prop
  | .script, x, y => (x = '(' ∧ y = ')') ∨ (x = '[' ∧ y = ']') ∨ (x = '{' ∧ y = '}')
  | _, x, y => x = '{' ∧ y = '}'

theorem IsPair.script {k : Context} {x y : Char} (h : IsPair k x y) : IsPair .script x y := by
  cases k with
  | script => exact h
  | _ => exact .inr (.inr h)

/-- Whether an element begins with a `<` that stands between these two texts, of which the one
before is given nearest character first. -/
def BeginsElement : Context → Text → Text → Prop
  | .script, before, after => opensMarkup before after = true
  | .attrs, _, _ => False
  | .markup, _, after => after.head? = some '>' ∨ (tagName? after).isSome = true

/-- Whether a character that stands between these two texts means nothing to the grammar. -/
def IsPlain : Context → Text → Char → Text → Prop
  | .script, before, x, after =>
    x ∉ "\x22\x27\x60()[]\x7b\x7d".toList ∧
      (x = '/' → after.head? ≠ some '/' ∧ after.head? ≠ some '*') ∧
      (x = '<' → ¬ BeginsElement .script before after ∧ ¬ BeginsWithClosingTag (x :: after))
  | .attrs, _, x, after =>
    x ∉ "\x22\x27\x7b\x7d)]<>".toList ∧ (x = '/' → after.head? ≠ some '>')
  | .markup, before, x, after =>
    x ≠ '{' ∧
      (x = '<' → ¬ BeginsElement .markup before after ∧ ¬ BeginsWithClosingTag (x :: after))

/-- The opening tag `name` takes a text up to its attributes. -/
structure OpensTag (k : Context) (c : Cursor) (name : Text) (d : Cursor) : Prop where
  written : c.Over ('<' :: name) d
  isName : IsTagName name
  ends : EndsTagName d.after
  begins : BeginsElement k c.before (name ++ d.after)

/-- The opening of a fragment takes a text up to its content. -/
structure OpensFragment (k : Context) (c d : Cursor) : Prop where
  written : c.Over ['<', '>'] d
  begins : BeginsElement k c.before ('>' :: d.after)

/-- The text between two places is a sequence of what the context allows. -/
inductive Reads : Context → Cursor → Cursor → Prop
  | nil (k : Context) (c : Cursor) : Reads k c c
  | plain {k : Context} {c d e : Cursor} {x : Char} :
      Reads k c d → d.Over [x] e → IsPlain k d.before x e.after → Reads k c e
  | string {k : Context} {c d e : Cursor} {q : Char} {body : Text} :
      Reads k c d → IsQuote k q → IsStringBody q body → d.Over (q :: (body ++ [q])) e →
      Reads k c e
  | lineComment {c d e : Cursor} {body : Text} :
      Reads .script c d → '\n' ∉ body → d.Over ('/' :: '/' :: (body ++ ['\n'])) e →
      Reads .script c e
  | lastComment {c d e : Cursor} {body : Text} :
      Reads .script c d → '\n' ∉ body → d.Over ('/' :: '/' :: body) e → e.after = [] →
      Reads .script c e
  | blockComment {c d e : Cursor} {body : Text} :
      Reads .script c d → ¬ ['*', '/'] <:+: body →
      d.Over ('/' :: '*' :: (body ++ ['*', '/'])) e → Reads .script c e
  | bracket {k : Context} {c d d' e e' : Cursor} {x y : Char} :
      Reads k c d → IsPair k x y → d.Over [x] d' → Reads .script d' e → e.Over [y] e' →
      Reads k c e'
  | selfClosing {k : Context} {c d d' e e' : Cursor} {name : Text} :
      Reads k c d → OpensTag k d name d' → Reads .attrs d' e → e.Over ['/', '>'] e' →
      Reads k c e'
  | void {k : Context} {c d d' e e' : Cursor} {name : Text} :
      Reads k c d → OpensTag k d name d' → isVoid name = true → Reads .attrs d' e →
      e.Over ['>'] e' → Reads k c e'
  | element {k : Context} {c d d' e e' f f' : Cursor} {name closer : Text} :
      Reads k c d → OpensTag k d name d' → isVoid name = false → Reads .attrs d' e →
      e.Over ['>'] e' → Reads .markup e' f → IsClosingTag name closer → f.Over closer f' →
      Reads k c f'
  | fragment {k : Context} {c d d' f f' : Cursor} {closer : Text} :
      Reads k c d → OpensFragment k d d' → Reads .markup d' f → IsClosingTag [] closer →
      f.Over closer f' → Reads k c f'

/-- A whole text that is script. -/
def IsScript (t : Text) : Prop := ∃ e, Reads .script (.ofText t) e ∧ e.after = []

variable {k : Context} {c d : Cursor}

theorem OpensTag.stop {name : Text} (h : OpensTag k c name d) : d.stop = c.stop := h.written.stop

theorem OpensFragment.stop (h : OpensFragment k c d) : d.stop = c.stop := h.written.stop

/-- A sequence goes on with another. -/
theorem Reads.trans {e : Cursor} (h : Reads k c d) (h' : Reads k d e) : Reads k c e := by
  induction h' with
  | nil => exact h
  | plain _ ho hp ih => exact .plain (ih h) ho hp
  | string _ hq hs ho ih => exact .string (ih h) hq hs ho
  | lineComment _ hs ho ih => exact .lineComment (ih h) hs ho
  | lastComment _ hs ho he ih => exact .lastComment (ih h) hs ho he
  | blockComment _ hs ho ih => exact .blockComment (ih h) hs ho
  | bracket _ hp ho hr ho' ih => exact .bracket (ih h) hp ho hr ho'
  | selfClosing _ ht hr ho ih => exact .selfClosing (ih h) ht hr ho
  | void _ ht hv hr ho ih => exact .void (ih h) ht hv hr ho
  | element _ ht hv hr ho hr' hc ho' ih => exact .element (ih h) ht hv hr ho hr' hc ho'
  | fragment _ ht hr hc ho ih => exact .fragment (ih h) ht hr hc ho

theorem Reads.stop (h : Reads k c d) : d.stop = c.stop := by
  induction h with
  | nil => rfl
  | plain _ ho _ ih => rw [ho.stop, ih]
  | string _ _ _ ho ih => rw [ho.stop, ih]
  | lineComment _ _ ho ih => rw [ho.stop, ih]
  | lastComment _ _ ho _ ih => rw [ho.stop, ih]
  | blockComment _ _ ho ih => rw [ho.stop, ih]
  | bracket _ _ ho _ ho' ih ih' => rw [ho'.stop, ih', ho.stop, ih]
  | selfClosing _ ho _ ho' ih ih' => rw [ho'.stop, ih', ho.stop, ih]
  | void _ ho _ _ ho' ih ih' => rw [ho'.stop, ih', ho.stop, ih]
  | element _ ho _ _ ho' _ _ ho'' ih ih' ih'' =>
    rw [ho''.stop, ih'', ho'.stop, ih', ho.stop, ih]
  | fragment _ ho _ _ ho' ih ih' => rw [ho'.stop, ih', ho.stop, ih]

end Grammar

end SnippetGate
