import HunkEdits.Edit.Builder

/-!
# The pending edit

What a builder does is told by three facts about its pending edit: where the edit begins
(`Pending.startFrom`), whether texts have been put in (`Pending.hasText`), and which text they make
up (`Pending.text`).  Each operation of the builder has its equation in these terms, so nothing else
has to look at the constructors of `Pending`.
-/

namespace HunkEdits

namespace Pending

/-- Where the pending edit begins: at `p` if nothing is pending. -/
def startFrom (p : Position) : Pending → Position
  | idle => p
  | deleting start _ | inserting start _ | replacing start _ _ => start

/-- Whether texts have been put in. -/
def hasText : Pending → Bool
  | idle | deleting _ _ => false
  | inserting _ _ | replacing _ _ _ => true

/-- The text that has been put in. -/
def text : Pending → Text
  | idle | deleting _ _ => []
  | inserting _ texts | replacing _ _ texts => joined texts

@[simp] theorem joined_nil : joined [] = [] := rfl

@[simp] theorem joined_cons (t : Text) (texts : List Text) :
    joined (t :: texts) = joined texts ++ t := by
  simp [joined]

@[simp] theorem startFrom_idle (p : Position) : idle.startFrom p = p := rfl

@[simp] theorem startFrom_deleting (p start stop : Position) :
    (deleting start stop).startFrom p = start := rfl

@[simp] theorem text_idle : idle.text = [] := rfl

theorem text_eq_nil {w : Pending} (h : w.hasText = false) : w.text = [] := by
  cases w with
  | idle => rfl
  | deleting start stop => rfl
  | inserting start texts => cases h
  | replacing start stop texts => cases h

/-! ### The edit that is pending -/

theorem edit?_eq_none_iff {w : Pending} : w.edit? = none ↔ w = idle := by
  cases w <;> simp [edit?]

theorem start_of_edit? {w : Pending} {edit : Edit} (p : Position) (h : w.edit? = some edit) :
    edit.start = w.startFrom p := by
  cases w <;> cases h <;> rfl

theorem text_of_edit? {w : Pending} {edit : Edit} (h : w.edit? = some edit) :
    edit.text = w.text := by
  cases w <;> cases h <;> rfl

end Pending

namespace Builder

open Pending

/-! ### Deleting -/

/-- A deletion fails if texts are pending, and else moves the end of the pending edit. -/
theorem delete_eq (b : Builder) (start stop : Position) :
    b.delete start stop =
      if b.pending.hasText then
        .error (.deletionAfterInsertion start (b.pending.startFrom start))
      else .ok { b with pending := .deleting (b.pending.startFrom start) stop } := by
  obtain ⟨w, closed⟩ := b
  cases w <;> rfl

/-! ### Inserting -/

section

variable (b : Builder) (p : Position) (t : Text)

@[simp] theorem closed_insert : (b.insert p t).closed = b.closed := by
  obtain ⟨w, closed⟩ := b
  cases w <;> rfl

@[simp] theorem hasText_insert : (b.insert p t).pending.hasText = true := by
  obtain ⟨w, closed⟩ := b
  cases w <;> rfl

@[simp] theorem startFrom_insert : (b.insert p t).pending.startFrom p = b.pending.startFrom p := by
  obtain ⟨w, closed⟩ := b
  cases w <;> rfl

@[simp] theorem text_insert : (b.insert p t).pending.text = b.pending.text ++ t := by
  obtain ⟨w, closed⟩ := b
  cases w <;> simp [insert, Pending.text]

/-- An insertion leaves the end of the pending edit where it is; a new edit ends at `p`. -/
theorem finish_of_edit?_insert {edit : Edit} (h : (b.insert p t).pending.edit? = some edit) :
    edit.finish = p ∨ ∃ old, b.pending.edit? = some old ∧ edit.finish = old.finish := by
  obtain ⟨w, closed⟩ := b
  cases w with
  | idle => exact .inl (by cases h; rfl)
  | deleting first stop => exact .inr ⟨_, rfl, by cases h; rfl⟩
  | inserting first texts => exact .inr ⟨_, rfl, by cases h; rfl⟩
  | replacing first stop texts => exact .inr ⟨_, rfl, by cases h; rfl⟩

end

/-! ### Closing -/

@[simp] theorem pending_close (b : Builder) : b.close.pending = .idle := by
  unfold close
  split <;> rfl

theorem close_eq (b : Builder) : b.close = ⟨.idle, b.close.closed⟩ := by
  rw [← b.pending_close]

theorem closed_close (b : Builder) :
    b.close.closed.toList = b.closed.toList ++ b.pending.edit?.toList := by
  unfold close
  split <;> rename_i h <;> simp [h, discard]

theorem finish_eq (b : Builder) : b.finish = b.closed.toList ++ b.pending.edit?.toList :=
  closed_close b

end Builder

end HunkEdits
