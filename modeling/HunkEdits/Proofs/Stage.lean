import HunkEdits.CommandLine.Machine
import HunkEdits.Proofs.Result

/-!
# Stages of a command

A command on a machine made of data is a sequence of stages, each of which may fail; what was done
before a failure stays done (`Stage.bind_apply`).  The stages that read change nothing on the
machine (`Stage.IsSilent`), or no more than what is still to come through standard input
(`Stage.Reads`).  Both pass from stages to sequences of them, so that one lemma for each stage is
enough.  A stage that prints may come after stages that read (`Stage.Reads.prints_bind`).
-/

namespace HunkEdits.CommandLine

/-- A stage of a command, on a machine made of data. -/
abbrev Stage (ε α : Type) := ExceptT ε (StateM Host) α

namespace Stage

variable {ε ε' α β : Type} {x : Stage ε α} {f : α → Stage ε β}

theorem bind_apply (x : Stage ε α) (f : α → Stage ε β) (host : Host) :
    (x >>= f) host = match x host with
      | (.ok a, host') => f a host'
      | (.error e, host') => (.error e, host') := by
  show ExceptT.bind x f host = _
  simp only [ExceptT.bind, ExceptT.mk, ExceptT.bindCont, bind, StateT.bind]
  rcases x host with ⟨_ | _, _⟩ <;> rfl

theorem lift_apply (x : StateM Host α) (host : Host) :
    (liftM x : Stage ε α) host = (.ok (x host).1, (x host).2) :=
  rfl

theorem adapt_apply (g : ε → ε') (x : Stage ε α) (host : Host) :
    (x.adapt g : Stage ε' α) host = ((x host).1.mapError g, (x host).2) :=
  rfl

theorem adapt_bind (g : ε → ε') (x : Stage ε α) (f : α → Stage ε β) :
    ((x >>= f).adapt g : Stage ε' β) = x.adapt g >>= fun a => (f a).adapt g := by
  funext host
  rw [adapt_apply, bind_apply, bind_apply, adapt_apply]
  rcases x host with ⟨_ | _, _⟩ <;> rfl

/-- A sequence of stages succeeds if the first one does and then the rest. -/
theorem bind_fst_eq_ok_iff {b : β} {host : Host} :
    ((x >>= f) host).1 = .ok b ↔ ∃ a, (x host).1 = .ok a ∧ (f a (x host).2).1 = .ok b := by
  rw [bind_apply]
  rcases x host with ⟨_ | _, _⟩ <;> simp

/-! ### Stages that read -/

/-- Whether a stage changes nothing on the machine. -/
def IsSilent (x : Stage ε α) : Prop :=
  ∀ host, (x host).2 = host

/-- Whether a stage changes nothing but what is still to come through standard input. -/
def Reads (x : Stage ε α) : Prop :=
  ∀ host, ∃ stdin, (x host).2 = { host with stdin }

theorem IsSilent.reads (h : IsSilent x) : Reads x :=
  fun host => ⟨host.stdin, h host⟩

/-- A stage that reads is known from its result. -/
theorem Reads.exists_eq {host : Host} {r : Except ε α} (hx : Reads x) (h : (x host).1 = r) :
    ∃ stdin, x host = (r, { host with stdin }) := by
  obtain ⟨stdin, hhost⟩ := hx host
  exact ⟨stdin, Prod.ext h hhost⟩

theorem IsSilent.bind (hx : IsSilent x) (hf : ∀ a, IsSilent (f a)) : IsSilent (x >>= f) := by
  intro host
  have h : x host = ((x host).1, host) := Prod.ext rfl (hx host)
  rw [bind_apply, h]
  cases (x host).1 with
  | error e => rfl
  | ok a => exact hf a host

theorem Reads.bind (hx : Reads x) (hf : ∀ a, Reads (f a)) : Reads (x >>= f) := by
  intro host
  obtain ⟨stdin, h⟩ := hx.exists_eq rfl
  rw [bind_apply, h]
  cases (x host).1 with
  | error e => exact ⟨stdin, rfl⟩
  | ok a => exact hf a { host with stdin }

theorem IsSilent.adapt (hx : IsSilent x) (g : ε → ε') : IsSilent (x.adapt g : Stage ε' α) :=
  hx

theorem Reads.adapt (hx : Reads x) (g : ε → ε') : Reads (x.adapt g : Stage ε' α) :=
  hx

/-! ### Stages that print -/

/-- Whether a stage touches no file, and prints nothing where it fails. -/
def Prints (x : Stage ε α) : Prop :=
  ∀ host, (∃ e stdin, x host = (.error e, { host with stdin })) ∨
    ∃ a stdin out told, x host =
      (.ok a, { host with stdin, stdout := host.stdout ++ out, stderr := host.stderr ++ told })

/-- Reading may fail before anything is printed. -/
theorem Reads.prints_bind (hx : Reads x) (hf : ∀ a, Prints (f a)) : Prints (x >>= f) := by
  intro host
  obtain ⟨stdin, h⟩ := hx.exists_eq rfl
  rw [bind_apply, h]
  cases (x host).1 with
  | error e => exact .inl ⟨e, stdin, rfl⟩
  | ok a => exact hf a { host with stdin }

theorem Prints.adapt (hx : Prints x) (g : ε → ε') : Prints (x.adapt g : Stage ε' α) := by
  intro host
  rw [adapt_apply]
  obtain ⟨e, stdin, h⟩ | ⟨a, stdin, out, told, h⟩ := hx host
  · exact .inl ⟨g e, stdin, by rw [h]; rfl⟩
  · exact .inr ⟨a, stdin, out, told, by rw [h]; rfl⟩

end Stage

open Stage

/-! ### The configuration -/

section

variable (read : Text → Except Text Configuration)

theorem Configuration.isSilent_readAt (path : Text) :
    IsSilent (readAt read path : Stage ConfigurationError Configuration) := by
  refine IsSilent.bind (fun _ => rfl) fun r => ?_
  cases r with
  | error fault => exact fun _ => rfl
  | ok t =>
    simp only
    cases read t <;> exact fun _ => rfl

theorem Configuration.isSilent_base (o : Overrides) :
    IsSilent (base read o : Stage ConfigurationError Configuration) := by
  unfold base
  split
  · exact fun _ => rfl
  · split
    · rename_i path _
      refine IsSilent.bind (fun _ => rfl) fun isPresent => ?_
      split
      · exact isSilent_readAt read path
      · exact fun _ => rfl
    · refine IsSilent.bind (fun _ => rfl) fun path => ?_
      refine IsSilent.bind (fun _ => rfl) fun isPresent => ?_
      split
      · exact isSilent_readAt read path
      · exact fun _ => rfl

end

theorem isSilent_loadConfiguration (lib : Libraries) (i : Invocation) :
    IsSilent (loadConfiguration lib i : Stage Text Configuration) := by
  refine IsSilent.adapt ?_ _
  exact (Configuration.isSilent_base lib.configuration i.overrides).bind fun _ _ => rfl

/-! ### The texts -/

variable {host : Host} {i : Invocation} {path text patch : Text}

theorem readBase_apply (path : Text) (host : Host) :
    (readBase path : Stage Failure Text) host =
      ((host.readText path).mapError (.base path), host) := by
  have h : (MonadHost.readText path : StateM Host _) host = (host.readText path, host) := rfl
  rw [readBase, bind_apply, lift_apply, h]
  cases host.readText path <;> rfl

theorem readBase_eq_ok_iff : ((readBase path : Stage Failure Text) host).1 = .ok text ↔
    host.readText path = .ok text := by
  rw [readBase_apply]
  exact mapError_eq_ok_iff

theorem isSilent_readBase (path : Text) : IsSilent (readBase path : Stage Failure Text) :=
  fun host => congrArg Prod.snd (readBase_apply path host)

theorem reads_readPatch (path : Option Text) : Reads (readPatch path : Stage Failure Text) := by
  cases path with
  | some path =>
    refine IsSilent.reads (IsSilent.bind (fun _ => rfl) fun r => ?_)
    cases r <;> exact fun _ => rfl
  | none =>
    -- Only this asks for what comes through standard input, which is gone afterwards.
    refine Reads.bind (fun host => ⟨_, rfl⟩) fun r => IsSilent.reads ?_
    rcases r with _ | _ | _ <;> exact fun _ => rfl

theorem readTexts_eq_ok_iff : ((readTexts i : Stage Failure (Text × Text)) host).1 =
      .ok (text, patch) ↔ ((readBase i.base : Stage Failure Text) host).1 = .ok text ∧
        ((readPatch i.patch : Stage Failure Text) host).1 = .ok patch := by
  rw [readTexts, bind_fst_eq_ok_iff]
  simp only [bind_fst_eq_ok_iff, isSilent_readBase i.base host]
  constructor
  · rintro ⟨text', hbase, patch', hpatch, h⟩
    obtain ⟨rfl, rfl⟩ := Prod.mk.inj (Except.ok.inj h)
    exact ⟨hbase, hpatch⟩
  · rintro ⟨hbase, hpatch⟩
    exact ⟨text, hbase, patch, hpatch, rfl⟩

theorem reads_readTexts (i : Invocation) : Reads (readTexts i : Stage Failure (Text × Text)) :=
  (isSilent_readBase i.base).reads.bind fun _ =>
    (reads_readPatch i.patch).bind fun _ => IsSilent.reads fun _ => rfl

theorem isSilent_documentUri (lib : Libraries) (path : Text) (uri : Option Text) :
    IsSilent (documentUri lib path uri : Stage Failure Text) := by
  cases uri with
  | some written =>
    rw [documentUri]
    split <;> exact fun _ => rfl
  | none =>
    refine IsSilent.bind (fun _ => rfl) fun r => ?_
    cases r with
    | error fault => exact fun _ => rfl
    | ok full =>
      simp only
      split <;> exact fun _ => rfl

/-! ### The edits -/

theorem orInvalidPatch_apply {α : Type} (r : Except PatchError α) (host : Host) :
    (orInvalidPatch r : Stage Failure α) host = (r.mapError .invalidPatch, host) := by
  cases r <;> rfl

theorem isSilent_orInvalidPatch {α : Type} (r : Except PatchError α) :
    IsSilent (orInvalidPatch r : Stage Failure α) :=
  fun host => congrArg Prod.snd (orInvalidPatch_apply r host)

theorem reads_readEdits (i : Invocation) (c : Configuration) :
    Reads (readEdits i c : Stage Failure (List Edit)) :=
  (reads_readTexts i).bind fun _ => (isSilent_orInvalidPatch _).reads

theorem reads_readReformatted (i : Invocation) (c : Configuration) :
    Reads (readReformatted i c : Stage Failure (List Edit × Text)) :=
  (reads_readTexts i).bind fun _ => (isSilent_orInvalidPatch _).reads

end HunkEdits.CommandLine
