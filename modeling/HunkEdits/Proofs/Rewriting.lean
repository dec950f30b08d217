import HunkEdits.Edit.Apply

/-!
# Edits as a rewriting of the rest of a text

`Rewrites d e n edits old new` says that edits turn the text `old`, which begins at byte `n` of a
document, into `new`.  It leaves open how much unchanged text before byte `n` is still to be copied,
so that it can be built up from the last edit to the first: `Rewrites.keep` moves over text that
stays, and `Rewrites.edit` over a range that an edit takes out.
-/

namespace HunkEdits.Edit

variable {d : Document} {e : Encoding} {n : Nat} {edits : List Edit} {old new : Text}

/-- The edits turn what follows byte `n` of the document, which is `old`, into `new`, whatever part
of the text before has not been copied yet. -/
def Rewrites (d : Document) (e : Encoding) (n : Nat) (edits : List Edit) (old new : Text) : Prop :=
  ∀ (done : Nat) (lag : Text), done + Text.bytes lag = n →
    applyFrom d e done (lag ++ old) edits = .ok (lag ++ new)

theorem Rewrites.nil (d : Document) (e : Encoding) (n : Nat) (t : Text) :
    Rewrites d e n [] t t := by
  intro done lag _
  rfl

theorem Rewrites.keep {t : Text} (h : Rewrites d e (n + Text.bytes t) edits old new) :
    Rewrites d e n edits (t ++ old) (t ++ new) := by
  intro done lag hlag
  have := h done (lag ++ t) (by rw [Text.bytes_append]; omega)
  simpa only [List.append_assoc] using this

/-- An edit puts its text in the place of its range. -/
theorem Rewrites.edit {edit : Edit} {gone : Text}
    (hr : edit.byteRange d e = (n, n + Text.bytes gone))
    (h : Rewrites d e (n + Text.bytes gone) edits old new) :
    Rewrites d e n (edit :: edits) (gone ++ old) (edit.text ++ new) := by
  intro done lag hlag
  have hrest : applyFrom d e (n + Text.bytes gone) old edits = .ok new := h _ [] rfl
  have hstart : ¬ n < done := by omega
  have hkept : Text.splitBytes (n - done) (lag ++ (gone ++ old)) = (lag, gone ++ old) := by
    rw [show n - done = Text.bytes lag by omega, Text.splitBytes_append]
  have hgone : Text.splitBytes (n + Text.bytes gone - n) (gone ++ old) = (gone, old) := by
    rw [Nat.add_sub_cancel_left, Text.splitBytes_append]
  simp only [applyFrom, hr, if_neg hstart, hkept, hgone, hrest]
  simp [Except.map]

/-- Edits that rewrite a text from its first byte on are applied to it. -/
theorem Rewrites.apply_eq {t : Text} (h : Rewrites (Document.ofText t) e 0 edits t new) :
    apply t edits e = .ok new :=
  h 0 [] rfl

end HunkEdits.Edit
