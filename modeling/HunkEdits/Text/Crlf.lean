import HunkEdits.Text

/-!
# Carriage returns before line feeds

The form of a text in which each line feed has a carriage return before it.
-/

namespace HunkEdits.Text

/-- The text with each line feed written as a carriage return and a line feed. -/
def crlf (t : Text) : Text :=
  t.flatMap fun c => if c = '\n' then ['\r', '\n'] else [c]

/-- Whether a carriage return stands right before a line feed. -/
def hasCrlf : Text → Bool
  | c :: d :: t => (c == '\r' && d == '\n') || hasCrlf (d :: t)
  | _ => false

@[simp] theorem crlf_nil : crlf [] = [] := rfl

theorem crlf_cons (c : Char) (t : Text) :
    crlf (c :: t) = (if c = '\n' then ['\r', '\n'] else [c]) ++ crlf t := rfl

@[simp] theorem crlf_append (s t : Text) : crlf (s ++ t) = crlf s ++ crlf t :=
  List.flatMap_append

end HunkEdits.Text
