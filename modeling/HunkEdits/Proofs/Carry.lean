import HunkEdits.Proofs.Rewriting
import HunkEdits.Proofs.Walk

/-!
# What a hunk does to a text

`Carries o d e p ops old new q` says what operations mean without any edits: from the position `p`
on they turn the text `old` of a document into `new`, and they lead to the position `q`.  A kept or
deleted piece of text has to lie between the two positions that its operation leads from and to;
nothing is said about its content.

The edits that are built from the operations do the same (`Edit.rewrites_of_carries`).
-/

namespace HunkEdits

/-- What operations do to a text, piece by piece. -/
inductive Op.Carries (o : Options) (d : Document) (e : Encoding) :
    Position → List Op → Text → Text → Position → Prop
  | nil (p : Position) : Carries o d e p [] [] [] p
  | keep {p q : Position} {op : Op} {ops : List Op} {old new : Text} (piece : Text)
      (hk : op.kind = .keep)
      (ho : d.offsetAt e (p.advance o.encoding op.text) = d.offsetAt e p + Text.bytes piece)
      (h : Carries o d e (p.advance o.encoding op.text) ops old new q) :
      Carries o d e p (op :: ops) (piece ++ old) (piece ++ new) q
  | delete {p q : Position} {op : Op} {ops : List Op} {old new : Text} (piece : Text)
      (hk : op.kind = .delete)
      (ho : d.offsetAt e (p.advance o.encoding op.text) = d.offsetAt e p + Text.bytes piece)
      (h : Carries o d e (p.advance o.encoding op.text) ops old new q) :
      Carries o d e p (op :: ops) (piece ++ old) new q
  | insert {p q : Position} {op : Op} {ops : List Op} {old new : Text} (hk : op.kind = .insert)
      (h : Carries o d e p ops old new q) : Carries o d e p (op :: ops) old (op.text ++ new) q

namespace Edit

variable {o : Options} {base d : Document} {e : Encoding} {p q : Position} {w : Pending}
  {b b' : Builder} {ops : List Op} {old new gone : Text}

/-! ### The pending edit in the document -/

/-- The text that the pending edit takes out ends at the cursor `p`, and so does its range. -/
structure Covers (d : Document) (e : Encoding) (w : Pending) (p : Position) (gone : Text) :
    Prop where
  cursor : d.offsetAt e p = d.offsetAt e (w.startFrom p) + Text.bytes gone
  finish : ∀ edit, w.edit? = some edit → d.offsetAt e edit.finish = d.offsetAt e p

theorem covers_idle (d : Document) (e : Encoding) (p : Position) : Covers d e .idle p [] :=
  ⟨rfl, by simp [Pending.edit?]⟩

/-- A deletion from the cursor to a position behind it takes out the text between them too. -/
theorem Covers.delete {p' : Position} {piece : Text} (hw : Covers d e w p gone)
    (ho : d.offsetAt e p' = d.offsetAt e p + Text.bytes piece) :
    Covers d e (.deleting (w.startFrom p) p') p' (gone ++ piece) := by
  constructor
  · have := hw.cursor
    rw [ho, Text.bytes_append, Pending.startFrom_deleting]
    omega
  · rintro edit ⟨⟩
    rfl

theorem Covers.insert (hw : Covers d e b.pending p gone) (t : Text) :
    Covers d e (b.insert p t).pending p gone := by
  constructor
  · rw [Builder.startFrom_insert]
    exact hw.cursor
  · intro edit hedit
    rcases Builder.finish_of_edit?_insert b p t hedit with h | ⟨old, hold, h⟩
    · rw [h]
    · rw [h, hw.finish old hold]

/-- When the pending edit ends, it replaces what it covers. -/
theorem Covers.rewrites {more : List Edit} {rest out : Text} (hw : Covers d e w p gone)
    (h : Rewrites d e (d.offsetAt e p) more rest out) :
    Rewrites d e (d.offsetAt e (w.startFrom p)) (w.edit?.toList ++ more) (gone ++ rest)
      (w.text ++ out) := by
  obtain ⟨hcur, hfin⟩ := hw
  cases hedit : w.edit? with
  | none =>
    obtain rfl := Pending.edit?_eq_none_iff.1 hedit
    have hbytes : Text.bytes gone = 0 := by
      rw [Pending.startFrom_idle] at hcur
      omega
    obtain rfl : gone = [] := Text.bytes_eq_zero_iff.1 hbytes
    exact h
  | some edit =>
    have hrange : edit.byteRange d e = (d.offsetAt e (w.startFrom p),
        d.offsetAt e (w.startFrom p) + Text.bytes gone) := by
      rw [byteRange, Pending.start_of_edit? p hedit, hfin edit hedit, hcur,
        Nat.max_eq_left (Nat.le_add_right _ _)]
    rw [hcur] at h
    rw [← Pending.text_of_edit? hedit]
    exact h.edit hrange

/-! ### The edits of a walk -/

/-- **A walk does what its operations mean.**  The edits that come out of a walk through operations
turn the text that the pending edit covers, and the text of the operations, into what the pending
edit puts in and what the operations leave. -/
theorem rewrites_of_carries (hc : Op.Carries o d e p ops old new q) {q' : Position}
    (hrun : ops.foldlM (step o base) (p, b) = .ok (q', b')) (hw : Covers d e b.pending p gone) :
    ∃ edits, b'.finish = b.closed.toList ++ edits ∧
      ∀ more rest out, Rewrites d e (d.offsetAt e q) more rest out →
        Rewrites d e (d.offsetAt e (b.pending.startFrom p)) (edits ++ more)
          (gone ++ (old ++ rest)) (b.pending.text ++ (new ++ out)) := by
  induction hc generalizing b gone with
  | nil p =>
    obtain ⟨rfl, rfl⟩ := Prod.mk.inj (Except.ok.inj hrun)
    refine ⟨_, b.finish_eq, ?_⟩
    intro more rest out h
    exact hw.rewrites h
  | @keep p q op ops old new piece hk ho _ ih =>
    rw [List.foldlM_cons, step_keep hk] at hrun
    obtain ⟨s, hs, hrun⟩ := bind_eq_ok_iff.1 hrun
    cases hctx : checkContext o base p op.text with
    | error err => rw [hctx] at hs; cases hs
    | ok _ =>
      rw [hctx] at hs
      obtain rfl := Except.ok.inj hs
      -- the kept line ends the pending edit, and its piece stays in front of what follows
      obtain ⟨edits, hedits, ih⟩ := ih hrun (by rw [b.pending_close]; exact covers_idle d e _)
      refine ⟨b.pending.edit?.toList ++ edits, ?_, ?_⟩
      · rw [hedits, b.closed_close, List.append_assoc]
      · intro more rest out h
        have h := ih more rest out h
        rw [b.pending_close, Pending.startFrom_idle, ho, Pending.text_idle] at h
        simpa using hw.rewrites h.keep
  | @delete p q op ops old new piece hk ho _ ih =>
    rw [List.foldlM_cons, step_delete hk, Builder.delete_eq] at hrun
    obtain ⟨s, hs, hrun⟩ := bind_eq_ok_iff.1 hrun
    obtain ⟨_, -, hs⟩ := bind_eq_ok_iff.1 hs
    cases ht : b.pending.hasText with
    | true => rw [ht] at hs; cases hs
    | false =>
      rw [ht] at hs
      obtain rfl := Except.ok.inj hs
      obtain ⟨edits, hedits, ih⟩ := ih hrun (hw.delete ho)
      refine ⟨edits, hedits, ?_⟩
      intro more rest out h
      have h := ih more rest out h
      rw [Pending.text_eq_nil ht]
      simpa [Pending.text] using h
  | @insert p q op ops old new hk _ ih =>
    rw [List.foldlM_cons, step_insert hk] at hrun
    obtain ⟨edits, hedits, ih⟩ := ih hrun (hw.insert op.text)
    refine ⟨edits, by rw [hedits, b.closed_insert], ?_⟩
    intro more rest out h
    have h := ih more rest out h
    rw [b.startFrom_insert, b.text_insert] at h
    simpa using h

theorem ofHunk_rewrites {h : Hunk} {edits more : List Edit} {rest out : Text}
    (hs : h.old.start < wordBound)
    (hc : Op.Carries o d e (.ofLine h.old.start) h.ops old new q)
    (hrun : ofHunk o base h = .ok edits) (hmore : Rewrites d e (d.offsetAt e q) more rest out) :
    Rewrites d e (d.lineStart h.old.start) (edits ++ more) (old ++ rest) (new ++ out) := by
  obtain ⟨⟨q', b'⟩, hrun, hfin⟩ := bind_eq_ok_iff.1 hrun
  rw [Position.anchor_of_lt hs] at hrun
  obtain ⟨edits', hedits, h⟩ := rewrites_of_carries hc hrun (covers_idle d e _)
  obtain rfl : edits' = edits := by simpa [← Except.ok.inj hfin] using hedits.symm
  rw [← d.offsetAt_ofLine e]
  exact h more rest out hmore

end Edit

end HunkEdits
