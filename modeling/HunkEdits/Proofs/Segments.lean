import HunkEdits.Proofs.Pending

/-!
# Segments of steps

The steps that a builder takes fall into segments.  A segment is cut off by a step that closes, by a
deletion that comes after an insertion, and by the end; so it consists of deletions with insertions
behind them (`Builder.Segment`).  A builder that has come through a segment holds it as its pending
edit (`Segment.pending`, `Builder.step_pending`), hence the edits of a run of steps are those of the
segments, and the open segment tells which steps fail (`Builder.finish_run_segments`).
-/

namespace HunkEdits.Builder

/-- Deletions, insertions behind them, and the step that cuts them off. -/
structure Segment where
  /-- The starts and the ends of the deletions. -/
  deletions : List (Position × Position) := []
  /-- The starts and the texts of the insertions. -/
  insertions : List (Position × Text) := []
  /-- The step that ends the segment, unless it goes on to the end of all steps. -/
  cut : Option Step := none
  deriving DecidableEq, Repr

namespace Segment

def steps (g : Segment) : List Step :=
  g.deletions.map (fun d => .delete d.1 d.2) ++ g.insertions.map (fun i => .insert i.1 i.2) ++
    g.cut.toList

/-- The segment with one more step, unless the step cuts it off. -/
def grow? (g : Segment) : Step → Option Segment
  | .delete start stop =>
    if g.insertions.isEmpty then some { g with deletions := g.deletions ++ [(start, stop)] }
    else none
  | .insert start text => some { g with insertions := g.insertions ++ [(start, text)] }
  | .close => none

/-- What is wrong with a step that comes behind the segment: a deletion fails after an insertion,
and names the start of the first step. -/
def refusal? (g : Segment) : Step → Option PatchError
  | .delete start _ =>
    match g.deletions, g.insertions with
    | _, [] => none
    | [], (first, _) :: _ | (first, _) :: _, _ :: _ => some (.deletionAfterInsertion start first)
  | .insert .. | .close => none

/-- The text that a segment puts in. -/
def text (g : Segment) : Text :=
  g.insertions.flatMap Prod.snd

/-- The edit of a segment.  One that is empty has none, and neither has one that a deletion cuts
off. -/
def edit? (g : Segment) : Option Edit :=
  match g.cut, g.deletions, g.insertions with
  | some (.delete ..), _, _ => none
  | _, [], [] => none
  | _, d :: ds, [] => some (.delete d.1 (ds.getLastD d).2)
  | _, [], (start, _) :: _ => some (.insert start g.text)
  | _, d :: ds, _ :: _ => some (.replace d.1 (ds.getLastD d).2 g.text)

end Segment

/-- The segments of steps, the first of which has begun already. -/
def segmentsFrom (g : Segment) : List Step → List Segment
  | [] => [g]
  | s :: steps =>
    match g.grow? s with
    | some g => segmentsFrom g steps
    | none => { g with cut := some s } :: segmentsFrom {} steps

def segments (steps : List Step) : List Segment :=
  segmentsFrom {} steps

/-! ### Cutting -/

namespace Segment

variable {g g' : Segment} {s : Step}

theorem cut_of_grow? (h : g.grow? s = some g') : g'.cut = g.cut := by
  cases s with
  | delete start stop =>
    rw [grow?] at h
    split at h
    · rw [← Option.some.inj h]
    · cases h
  | insert start text => rw [← Option.some.inj h]
  | close => cases h

theorem steps_of_grow? (hg : g.cut = none) (h : g.grow? s = some g') :
    g'.steps = g.steps ++ [s] := by
  cases s with
  | delete start stop =>
    rw [grow?] at h
    split at h
    · rename_i hi
      rw [← Option.some.inj h]
      simp [steps, hg, List.isEmpty_iff.1 hi]
    · cases h
  | insert start text =>
    rw [← Option.some.inj h]
    simp [steps, hg]
  | close => cases h

end Segment

/-- Cutting loses no step. -/
theorem flatMap_steps_segmentsFrom {g : Segment} (hg : g.cut = none) (steps : List Step) :
    (segmentsFrom g steps).flatMap Segment.steps = g.steps ++ steps := by
  induction steps generalizing g with
  | nil => simp [segmentsFrom]
  | cons s steps ih =>
    rw [segmentsFrom]
    split
    · rename_i g' h
      rw [ih ((Segment.cut_of_grow? h).trans hg), Segment.steps_of_grow? hg h,
        List.append_assoc, List.singleton_append]
    · rw [List.flatMap_cons, ih rfl]
      simp [Segment.steps, hg]

/-! ### The segment that is pending -/

namespace Segment

/-- What is pending in a builder that has come through a segment. -/
def pending (g : Segment) : Pending :=
  match g.deletions, g.insertions with
  | [], [] => .idle
  | d :: ds, [] => .deleting d.1 (ds.getLastD d).2
  | [], (start, _) :: _ => .inserting start (g.insertions.map Prod.snd).reverse
  | d :: ds, _ :: _ => .replacing d.1 (ds.getLastD d).2 (g.insertions.map Prod.snd).reverse

variable {g g' : Segment} {s : Step}

theorem edit?_pending (h : ∀ start stop, g.cut ≠ some (.delete start stop)) :
    g.pending.edit? = g.edit? := by
  obtain ⟨deletions, insertions, cut⟩ := g
  have hjoined : ∀ is : List (Position × Text),
      Pending.joined (is.map Prod.snd).reverse = is.flatMap Prod.snd := by
    intro is
    rw [Pending.joined, List.reverse_reverse, List.flatMap_def]
  rcases cut with _ | ⟨start, stop⟩ | ⟨start, text⟩ | _
  case some.delete => exact absurd rfl (h start stop)
  all_goals
    rcases deletions with _ | ⟨d, ds⟩ <;> rcases insertions with _ | ⟨i, is⟩ <;>
      simp only [pending, Pending.edit?, edit?, Segment.text, hjoined]

end Segment

variable {g g' : Segment} {s : Step}

theorem step_pending_of_grow? (h : g.grow? s = some g') (closed : Array Edit) :
    step ⟨g.pending, closed⟩ s = (⟨g'.pending, closed⟩, none) := by
  obtain ⟨deletions, insertions, cut⟩ := g
  cases s with
  | delete start stop =>
    rcases insertions with _ | ⟨i, is⟩
    · obtain rfl := Option.some.inj h
      rcases deletions with _ | ⟨d, ds⟩ <;> simp [step, delete, Segment.pending]
    · cases h
  | insert start text =>
    obtain rfl := Option.some.inj h
    rcases deletions with _ | ⟨d, ds⟩ <;> rcases insertions with _ | ⟨i, is⟩ <;>
      simp [step, insert, Segment.pending]
  | close => cases h

/-- A step that cuts the segment off leaves nothing pending. -/
theorem step_pending_of_cut (h : g.grow? s = none) (closed : List Edit) :
    (step ⟨g.pending, closed.toArray⟩ s).1 =
      ⟨.idle, (closed ++ ({ g with cut := some s } : Segment).edit?.toList).toArray⟩ := by
  cases s with
  | delete start stop =>
    obtain ⟨deletions, insertions, cut⟩ := g
    rcases insertions with _ | ⟨i, is⟩
    · cases h
    · rcases deletions with _ | ⟨d, ds⟩ <;>
        simp [step, delete, discard, Segment.pending, Segment.edit?]
  | insert start text => cases h
  | close =>
    have hedit : g.pending.edit? = ({ g with cut := some .close } : Segment).edit? :=
      Segment.edit?_pending (g := { g with cut := some .close }) (by simp)
    have hclosed := closed_close ⟨g.pending, closed.toArray⟩
    rw [← hedit, ← hclosed, Array.toArray_toList]
    exact close_eq _

theorem snd_step_pending (g : Segment) (closed : Array Edit) (s : Step) :
    (step ⟨g.pending, closed⟩ s).2 = g.refusal? s := by
  obtain ⟨deletions, insertions, cut⟩ := g
  cases s with
  | delete start stop =>
    rcases deletions with _ | ⟨d, ds⟩ <;> rcases insertions with _ | ⟨i, is⟩ <;> rfl
  | insert start text => rfl
  | close => rfl

/-! ### Runs -/

theorem run_cons (b : Builder) (s : Step) (steps : List Step) :
    b.run (s :: steps) = (b.step s).1.run steps := rfl

theorem run_append (b : Builder) (before after : List Step) :
    b.run (before ++ after) = (b.run before).run after :=
  List.foldl_append

/-- A builder that has come through a segment has, after further steps, the edits of the segments
that these cut off, and has come through the last one. -/
theorem run_pending (hg : g.cut = none) (closed : List Edit) (steps : List Step) :
    ∃ done last, segmentsFrom g steps = done ++ [last] ∧ last.cut = none ∧
      run ⟨g.pending, closed.toArray⟩ steps =
        ⟨last.pending, (closed ++ done.filterMap Segment.edit?).toArray⟩ := by
  induction steps generalizing g closed with
  | nil => exact ⟨[], g, rfl, hg, by simp [run]⟩
  | cons s steps ih =>
    rw [segmentsFrom, run_cons]
    cases h : g.grow? s with
    | some g' =>
      rw [step_pending_of_grow? h]
      exact ih ((Segment.cut_of_grow? h).trans hg) closed
    | none =>
      let ended : Segment := { g with cut := some s }
      obtain ⟨done, last, hcut, hlast, hrun⟩ := ih (g := {}) rfl (closed ++ ended.edit?.toList)
      refine ⟨ended :: done, last, by simp [ended, hcut], hlast, ?_⟩
      have hedits : (ended :: done).filterMap Segment.edit? =
          ended.edit?.toList ++ done.filterMap Segment.edit? := by
        cases hedit : ended.edit? <;> simp [hedit]
      rw [step_pending_of_cut h, hedits, ← List.append_assoc]
      exact hrun

/-- Later steps change none of the edits that are closed. -/
theorem closed_prefix_run (b : Builder) (steps : List Step) :
    b.closed.toList <+: (b.run steps).finish := by
  induction steps generalizing b with
  | nil =>
    rw [finish_eq]
    exact List.prefix_append ..
  | cons s steps ih =>
    have hstep : b.closed.toList <+: (b.step s).1.closed.toList := by
      cases s with
      | delete start stop =>
        rw [step, delete_eq]
        cases b.pending.hasText <;> exact List.prefix_rfl
      | insert start text =>
        have hsame : (b.step (.insert start text)).1.closed = b.closed := closed_insert b start text
        exact hsame ▸ List.prefix_rfl
      | close =>
        rw [step, closed_close]
        exact List.prefix_append ..
    exact hstep.trans (ih _)

/-- **The edits of a run of steps are those of its segments.**  The steps before any point are cut
into segments, of which the last one is open.  The edits up to there are those of the segments, in
order; a step that comes next fails exactly if it is a deletion and the open segment has an
insertion, and the error names the deletion and the first step of that segment; and whatever steps
follow, the edits of the segments before the open one stay as they are. -/
theorem finish_run_segments (before : List Step) :
    (segments before).flatMap Segment.steps = before ∧
    (run {} before).finish = (segments before).filterMap Segment.edit? ∧
    ∃ done last, segments before = done ++ [last] ∧ last.cut = none ∧
      (∀ s, (step (run {} before) s).2 = last.refusal? s) ∧
      ∀ after, done.filterMap Segment.edit? <+: (run {} (before ++ after)).finish := by
  obtain ⟨done, last, hcut, hlast, hrun⟩ := run_pending (g := {}) rfl [] before
  have hrun : run {} before = ⟨last.pending, (done.filterMap Segment.edit?).toArray⟩ := hrun
  refine ⟨flatMap_steps_segmentsFrom rfl before, ?_, done, last, hcut, hlast, ?_, ?_⟩
  · have hedit : last.pending.edit? = last.edit? := Segment.edit?_pending (by simp [hlast])
    rw [hrun, finish_eq, segments, hcut, List.filterMap_append, hedit]
    cases hmade : last.edit? <;> simp [hmade]
  · intro s
    rw [hrun, snd_step_pending]
  · intro after
    have hclosed := closed_prefix_run (run {} before) after
    rwa [← run_append, hrun] at hclosed

/-- A deletion that is refused takes the insertion before it along, and a new segment begins. -/
example : (run {} [.insert (.ofLine 0) ['a'], .delete (.ofLine 0) (.ofLine 1),
    .delete (.ofLine 2) (.ofLine 3)]).finish = [.delete (.ofLine 2) (.ofLine 3)] := by decide

end HunkEdits.Builder
