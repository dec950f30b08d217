import HunkEdits.CommandLine.FileTree
import HunkEdits.Proofs.Outcome
import HunkEdits.Proofs.Stage

/-!
# What a command changes

A command changes nothing unless it succeeds, and what it writes is what it would print
(`FileTree.run_frame`).  Carrying out an invocation ends in one of three ways (`carryOut_cases`): it
fails, and then only standard input has been read; or something has been printed and no file was
touched; or one file was written.  Nothing comes after printing or writing that could still fail, as
`deliver` and `printJson` are last.  An invocation that applies edits comes to them and to the new
text first, whatever it does with them (`carryOut_of_apply`).
-/

namespace HunkEdits.CommandLine

open Stage Text

/-! ### Bytes of texts -/

/-- Bytes stand for a text if they are its UTF-8 form. -/
theorem decode_eq_ok_iff {bytes : ByteArray} {t : Text} :
    decode bytes = .ok t ↔ encode t = bytes := by
  constructor
  · intro h
    unfold decode String.fromUTF8? at h
    split at h
    · rename_i s hs
      split at hs
      · obtain rfl := Except.ok.inj h
        obtain rfl := Option.some.inj hs
        rw [encode, String.ofList_toList]
        rfl
      · cases hs
    · cases h
  · rintro rfl
    have hs : String.fromUTF8? (encode t) = some (String.ofList t) := by
      rw [encode, String.fromUTF8?, String.toUTF8_eq_toByteArray,
        dif_pos (String.ofList t).isValidUTF8]
      rfl
    rw [decode, hs]
    exact congrArg Except.ok String.toList_ofList

/-! ### What a machine gives -/

/-- The configuration and the two texts that an invocation finds on a machine. -/
structure Host.Gives (host : Host) (lib : Libraries) (i : Invocation) (c : Configuration)
    (text patch : Text) : Prop where
  config : ((loadConfiguration lib i : Stage Text Configuration) host).1 = .ok c
  base : ((readBase i.base : Stage Failure Text) host).1 = .ok text
  patch : ((readPatch i.patch : Stage Failure Text) host).1 = .ok patch

variable {lib : Libraries} {host : Host} {i : Invocation} {c : Configuration}
  {words words' : List Text} {text patch new path : Text} {edits : List Edit} {route r : Route}

/-- What a machine gives does not depend on what is then done with it. -/
theorem Host.Gives.of_command (h : host.Gives lib i c text patch) (command : Command) :
    host.Gives lib { i with command } c text patch :=
  ⟨h.config, h.base, h.patch⟩

theorem readPatch_none (h : host.stdin = some (encode patch)) :
    ((readPatch none : Stage Failure Text) host).1 = .ok patch := by
  have hread : host.stdin.map decode = some (.ok patch) := by
    rw [h, Option.map_some, decode_eq_ok_iff.2 rfl]
  simp only [readPatch, bind_apply, lift_apply, MonadHost.readInput, hread]
  rfl

theorem Host.Gives.loadConfiguration_eq (h : host.Gives lib i c text patch) :
    (loadConfiguration lib i : Stage Text Configuration) host = (.ok c, host) :=
  Prod.ext h.config (isSilent_loadConfiguration lib i host)

theorem Host.Gives.exists_readTexts (h : host.Gives lib i c text patch) :
    ∃ stdin, (readTexts i : Stage Failure (Text × Text)) host =
      (.ok (text, patch), { host with stdin }) :=
  (reads_readTexts i).exists_eq (readTexts_eq_ok_iff.2 ⟨h.base, h.patch⟩)

theorem reformat_eq_ok_iff {o : Options} : Edit.reformat o text patch = .ok (edits, new) ↔
    Edit.ofPatch o text patch = .ok edits ∧ Edit.apply text edits o.encoding = .ok new := by
  rw [Edit.reformat, bind_eq_ok_iff]
  constructor
  · rintro ⟨edits', hconv, h⟩
    obtain ⟨new', happly, h⟩ := bind_eq_ok_iff.1 h
    obtain ⟨rfl, rfl⟩ := Prod.mk.inj (Except.ok.inj h)
    exact ⟨hconv, happly⟩
  · rintro ⟨hconv, happly⟩
    exact ⟨edits, hconv, bind_eq_ok_iff.2 ⟨new, happly, rfl⟩⟩

/-- The edits and the new text that an invocation comes to. -/
def reformatted (lib : Libraries) (i : Invocation) : Stage Text (List Edit × Text) := do
  let c ← loadConfiguration lib i
  (readReformatted i c).adapt Failure.complaint

theorem reads_reformatted (lib : Libraries) (i : Invocation) : Reads (reformatted lib i) :=
  (isSilent_loadConfiguration lib i).reads.bind fun c => (reads_readReformatted i c).adapt _

theorem reformatted_eq_ok_iff : (reformatted lib i host).1 = .ok (edits, new) ↔
    ∃ c text patch, host.Gives lib i c text patch ∧ Edit.ofPatch c.options text patch = .ok edits ∧
      Edit.apply text edits c.encoding = .ok new := by
  simp only [reformatted, readReformatted, bind_fst_eq_ok_iff, adapt_apply, mapError_eq_ok_iff,
    isSilent_loadConfiguration lib i host, Prod.exists, readTexts_eq_ok_iff, orInvalidPatch_apply,
    reformat_eq_ok_iff]
  constructor
  · rintro ⟨c, hc, text, patch, ⟨ht, hp⟩, hconv, happly⟩
    exact ⟨c, text, patch, ⟨hc, ht, hp⟩, hconv, happly⟩
  · rintro ⟨c, text, patch, ⟨hc, ht, hp⟩, hconv, happly⟩
    exact ⟨c, hc, text, patch, ⟨ht, hp⟩, hconv, happly⟩

/-- The edits and the new text are those of the texts that are given. -/
theorem Host.Gives.reformatted_eq (h : host.Gives lib i c text patch) :
    (reformatted lib i host).1 = (Edit.reformat c.options text patch).mapError fun e =>
      (Failure.invalidPatch e).complaint := by
  obtain ⟨stdin, hread⟩ := h.exists_readTexts
  rw [reformatted, bind_apply, h.loadConfiguration_eq]
  simp only [adapt_apply, readReformatted, bind_apply, hread, orInvalidPatch_apply]
  cases Edit.reformat c.options text patch <;> rfl

/-- An invocation that applies comes to its edits and new text first, whatever it does with them. -/
theorem carryOut_of_apply {write dryRun : Bool} (lib : Libraries)
    (hi : i.command = .apply write dryRun) : carryOut lib i =
      reformatted lib i >>= fun result =>
        (deliver i.base write dryRun result.1 result.2 : Stage Failure Unit).adapt
          Failure.complaint := by
  rw [reformatted, bind_assoc, carryOut]
  congr 1
  funext c
  rw [execute, hi]
  exact adapt_bind Failure.complaint _ _

/-! ### Trees -/

namespace FileTree

variable {tree : FileTree}

theorem find?_update (tree : FileTree) (route : Route) (bytes : ByteArray) (r : Route) :
    (tree.update route bytes).nodes.find? (fun n => n.1 == r) =
      (tree.nodes.find? fun n => n.1 == r).map fun n =>
        if n.1 == route then (route, .file bytes) else n := by
  have hkey : ((fun n => n.1 == r) ∘ fun n : Route × Node =>
      if n.1 == route then (route, Node.file bytes) else n) = fun n => n.1 == r := by
    funext n
    by_cases hn : n.1 = route <;> simp [hn]
  rw [update, List.find?_map, hkey]

theorem node?_update_of_ne (h : r ≠ route) (tree : FileTree) (bytes : ByteArray) :
    (tree.update route bytes).node? r = tree.node? r := by
  rw [node?, node?, find?_update]
  cases hfind : tree.nodes.find? fun n => n.1 == r with
  | none => rfl
  | some n =>
    have hkey : n.1 = r := by simpa using List.find?_some hfind
    simp [hkey, h]

theorem node?_update_self {old : ByteArray} (h : tree.node? route = some (.file old))
    (bytes : ByteArray) : (tree.update route bytes).node? route = some (.file bytes) := by
  unfold node? at h ⊢
  split at h
  · cases h
  · rename_i hne
    obtain ⟨n, hn, -⟩ := Option.map_eq_some_iff.1 h
    have hkey : n.1 = route := by simpa using List.find?_some hn
    rw [if_neg hne, find?_update, hn]
    simp [hkey]

end FileTree

/-- The text that is read at a path is that of a file. -/
theorem Host.readText_eq_ok_iff : host.readText path = .ok text ↔
    ∃ route, host.route path = .ok route ∧
      host.tree.node? route = some (.file (encode text)) := by
  simp only [readText, HunkEdits.bind_eq_ok_iff, decode_eq_ok_iff]
  constructor
  · rintro ⟨route, hroute, bytes, hread, rfl⟩
    refine ⟨route, hroute, ?_⟩
    unfold FileTree.readAt at hread
    split at hread
    · cases hread
    · cases hread
    · rename_i hnode
      rw [hnode, Except.ok.inj hread]
  · rintro ⟨route, hroute, hnode⟩
    refine ⟨route, hroute, encode text, ?_, rfl⟩
    rw [FileTree.readAt, hnode]

theorem Host.Gives.exists_route (h : host.Gives lib i c text patch) :
    ∃ route, host.route i.base = .ok route ∧
      host.tree.node? route = some (.file (encode text)) :=
  Host.readText_eq_ok_iff.1 (readBase_eq_ok_iff.1 h.base)

/-! ### Stages that deliver -/

theorem prints_printJson (c : Configuration) (v : Json) :
    Prints (printJson c v : Stage Failure Unit) := by
  intro host
  refine .inr ⟨(), host.stdin, printed c v, [], ?_⟩
  rw [List.append_nil]
  rfl

theorem deliver_dryRun (path : Text) (write : Bool) (edits : List Edit) (new : Text) (host : Host) :
    ∃ told, (deliver path write true edits new : Stage Failure Unit) host =
      (.ok (), { host with stderr := host.stderr ++ told }) := by
  cases edits with
  | nil =>
    refine ⟨"No changes.\n".toList ++ dryRunReport path [], ?_⟩
    rw [← List.append_assoc]
    rfl
  | cons edit edits => exact ⟨_, rfl⟩

theorem deliver_print (path : Text) (edits : List Edit) (new : Text) (host : Host) :
    (deliver path false false edits new : Stage Failure Unit) host =
      (.ok (), { host with
        stdout := host.stdout ++ new
        stderr := host.stderr ++ if edits.isEmpty then "No changes.\n".toList else [] }) := by
  cases edits with
  | nil => rfl
  | cons edit edits =>
    rw [List.isEmpty_cons, if_neg Bool.false_ne_true, List.append_nil]
    rfl

/-- Writing to a file that is there does not fail. -/
theorem deliver_write {old : ByteArray} (hne : edits ≠ []) (new : Text)
    (hroute : host.route path = .ok route) (hnode : host.tree.node? route = some (.file old)) :
    (deliver path true false edits new : Stage Failure Unit) host =
      (.ok (), { host with tree := host.tree.update route (encode new) }) := by
  have hwrite : host.writeText path new =
      .ok { host with tree := host.tree.update route (encode new) } := by
    simp only [Host.writeText, hroute, FileTree.writeAt, hnode, bind, Except.bind, pure,
      Except.pure]
  obtain ⟨edit, edits, rfl⟩ := List.exists_cons_of_ne_nil hne
  simp only [deliver, List.isEmpty_cons, Bool.false_eq_true, if_false, if_true, Bool.not_false,
    bind_apply, lift_apply, MonadHost.writeText, hwrite]
  rfl

theorem prints_deliver {write dryRun : Bool} (h : dryRun = true ∨ write = false) (path : Text)
    (edits : List Edit) (new : Text) :
    Prints (deliver path write dryRun edits new : Stage Failure Unit) := by
  intro host
  cases dryRun with
  | true =>
    obtain ⟨told, h⟩ := deliver_dryRun path write edits new host
    refine .inr ⟨(), host.stdin, [], told, ?_⟩
    rw [h, List.append_nil]
  | false =>
    obtain rfl : write = false := by simpa using h
    exact .inr ⟨(), host.stdin, new, _, deliver_print path edits new host⟩

/-! ### Carrying out -/

theorem prints_execute (lib : Libraries) (hi : i.command ≠ .apply true false) (c : Configuration) :
    Prints (execute lib i c : Stage Failure Unit) := by
  unfold execute
  cases hcommand : i.command with
  | edits => exact (reads_readEdits i c).prints_bind fun _ => prints_printJson c _
  | textEdits => exact (reads_readEdits i c).prints_bind fun _ => prints_printJson c _
  | workspaceEdit uri =>
    exact (isSilent_documentUri lib i.base uri).reads.prints_bind fun _ =>
      (reads_readEdits i c).prints_bind fun _ => prints_printJson c _
  | apply write dryRun =>
    have h : dryRun = true ∨ write = false := by
      rw [hcommand] at hi
      cases dryRun <;> cases write <;> simp at hi ⊢
    exact (reads_readReformatted i c).prints_bind fun _ => prints_deliver h _ _ _

theorem prints_carryOut (lib : Libraries) (hi : i.command ≠ .apply true false) :
    Prints (carryOut lib i : Stage Text Unit) :=
  (isSilent_loadConfiguration lib i).reads.prints_bind fun c =>
    (prints_execute lib hi c).adapt Failure.complaint

/-- **What carrying out an invocation comes to.**  It fails and nothing was printed or written; or
it succeeds and no file was touched; or it writes its edits to the base file. -/
theorem carryOut_cases (lib : Libraries) (i : Invocation) (host : Host) :
    (∃ line stdin, (carryOut lib i : Stage Text Unit) host = (.error line, { host with stdin })) ∨
    (∃ stdin out told, (carryOut lib i : Stage Text Unit) host =
      (.ok (), { host with stdin, stdout := host.stdout ++ out, stderr := host.stderr ++ told })) ∨
    ∃ c text patch edits new route stdin, i.command = .apply true false ∧
      host.Gives lib i c text patch ∧ Edit.ofPatch c.options text patch = .ok edits ∧ edits ≠ [] ∧
      host.route i.base = .ok route ∧ (carryOut lib i : Stage Text Unit) host =
        (.ok (), { host with stdin, tree := host.tree.update route (encode new) }) := by
  by_cases hi : i.command = .apply true false
  · rw [carryOut_of_apply lib hi, bind_apply]
    rcases hresult : (reformatted lib i host).1 with line | ⟨edits, new⟩
    · obtain ⟨stdin, h⟩ := (reads_reformatted lib i).exists_eq hresult
      rw [h]
      exact .inl ⟨line, stdin, rfl⟩
    · obtain ⟨stdin, h⟩ := (reads_reformatted lib i).exists_eq hresult
      obtain ⟨c, text, patch, hgives, hconv, -⟩ := reformatted_eq_ok_iff.1 hresult
      rw [h]
      right
      by_cases hne : edits = []
      · subst hne
        exact .inl ⟨stdin, [], "No changes.\n".toList, by rw [List.append_nil]; rfl⟩
      · obtain ⟨route, hroute, hnode⟩ := hgives.exists_route
        right
        refine ⟨c, text, patch, edits, new, route, stdin, hi, hgives, hconv, hne, hroute, ?_⟩
        have hdeliver : (deliver i.base true false edits new : Stage Failure Unit)
            { host with stdin } =
              (.ok (), { host with stdin, tree := host.tree.update route (encode new) }) :=
          deliver_write hne new hroute hnode
        simp only [adapt_apply, hdeliver]
        rfl
  · obtain ⟨line, stdin, h⟩ | ⟨_, stdin, out, told, h⟩ := prints_carryOut lib hi host
    · exact .inl ⟨line, stdin, h⟩
    · exact .inr (.inl ⟨stdin, out, told, h⟩)

/-! ### Running -/

theorem run_of_invocation (h : lib.arguments words = .ok i) (host : Host) :
    (run lib words : StateM Host Nat) host = match (carryOut lib i : Stage Text Unit) host with
      | (.ok (), host') => (0, host')
      | (.error line, host') => (1, { host' with stderr := host'.stderr ++ line }) := by
  rw [run, h]
  show StateT.bind (carryOut lib i : Stage Text Unit) _ host = _
  simp only [StateT.bind, bind]
  rcases (carryOut lib i : Stage Text Unit) host with ⟨_ | _, _⟩ <;> rfl

namespace FileTree

variable {tree : FileTree} {directory : Route} {defaultConfig : Text} {stdin : Option ByteArray}

theorem runWith_of_usage {report : Text} (h : lib.arguments words = .error (.usage report)) :
    tree.runWith lib directory defaultConfig stdin words = (⟨2, [], report⟩, tree) := by
  rw [runWith, CommandLine.run, h]
  rfl

theorem runWith_of_display {t : Text} (h : lib.arguments words = .error (.display t)) :
    tree.runWith lib directory defaultConfig stdin words = (⟨0, t, []⟩, tree) := by
  rw [runWith, CommandLine.run, h]
  rfl

/-- **How a run ends.**  It exits with another code than 0, and nothing was printed or written; or
it exits with 0 and no file was touched; or it exits with 0 and has written its edits. -/
theorem runWith_cases (lib : Libraries) (tree : FileTree) (directory : Route) (defaultConfig : Text)
    (stdin : Option ByteArray) (words : List Text) :
    let result := tree.runWith lib directory defaultConfig stdin words
    (result.1.exitCode ≠ 0 ∧ result.1.stdout = [] ∧ result.2 = tree) ∨
    (result.1.exitCode = 0 ∧ result.2 = tree) ∨
    result.1.exitCode = 0 ∧ ∃ i c text patch edits new route, lib.arguments words = .ok i ∧
      i.command = .apply true false ∧
      (tree.host directory defaultConfig stdin).Gives lib i c text patch ∧
      Edit.ofPatch c.options text patch = .ok edits ∧ edits ≠ [] ∧
      tree.route directory i.base = .ok route ∧ result.2 = tree.update route (encode new) := by
  intro result
  cases hwords : lib.arguments words with
  | error stop =>
    cases stop with
    | usage report =>
      have hresult : result = (⟨2, [], report⟩, tree) := runWith_of_usage hwords
      rw [hresult]
      exact .inl ⟨Nat.succ_ne_zero 1, rfl, rfl⟩
    | display t =>
      have hresult : result = (⟨0, t, []⟩, tree) := runWith_of_display hwords
      rw [hresult]
      exact .inr (.inl ⟨rfl, rfl⟩)
  | ok i =>
    simp only [result, runWith]
    rw [run_of_invocation hwords]
    obtain ⟨line, _, h⟩ | ⟨_, out, told, h⟩ |
      ⟨c, text, patch, edits, new, route, _, hi, hgives, hconv, hne, hroute, h⟩ :=
        carryOut_cases lib i (tree.host directory defaultConfig stdin)
    · rw [h]
      exact .inl ⟨Nat.one_ne_zero, rfl, rfl⟩
    · rw [h]
      exact .inr (.inl ⟨rfl, rfl⟩)
    · rw [h]
      exact .inr (.inr ⟨rfl, i, c, text, patch, edits, new, route, rfl, hi, hgives, hconv, hne,
        hroute, rfl⟩)

/-- A run changes no file but the base file of an invocation that writes its edits. -/
theorem node?_runWith (r : Route) :
    (tree.runWith lib directory defaultConfig stdin words).2.node? r = tree.node? r ∨
    (tree.runWith lib directory defaultConfig stdin words).1.exitCode = 0 ∧
      ∃ i c text patch edits, lib.arguments words = .ok i ∧ i.command = .apply true false ∧
        tree.route directory i.base = .ok r ∧
        (tree.host directory defaultConfig stdin).Gives lib i c text patch ∧
        Edit.ofPatch c.options text patch = .ok edits ∧ edits ≠ [] := by
  obtain ⟨-, -, htree⟩ | ⟨-, htree⟩ |
    ⟨hexit, i, c, text, patch, edits, new, route, hwords, hi, hgives, hconv, hne, hroute, htree⟩ :=
      runWith_cases lib tree directory defaultConfig stdin words
  · exact .inl (congrArg (node? · r) htree)
  · exact .inl (congrArg (node? · r) htree)
  · by_cases hr : r = route
    · subst hr
      exact .inr ⟨hexit, i, c, text, patch, edits, hwords, hi, hroute, hgives, hconv, hne⟩
    · exact .inl ((congrArg (node? · r) htree).trans (node?_update_of_ne hr tree _))

theorem runWith_of_error {write dryRun : Bool} {line : Text}
    (hwords : lib.arguments words = .ok i) (hi : i.command = .apply write dryRun)
    (h : (reformatted lib i (tree.host directory defaultConfig stdin)).1 = .error line) :
    tree.runWith lib directory defaultConfig stdin words = (⟨1, [], line⟩, tree) := by
  obtain ⟨stdin', h⟩ := (reads_reformatted lib i).exists_eq h
  rw [runWith, run_of_invocation hwords, carryOut_of_apply lib hi, bind_apply, h]
  rfl

theorem runWith_edits (hwords : lib.arguments words = .ok i) (hi : i.command = .edits)
    (h : (tree.host directory defaultConfig stdin).Gives lib i c text patch)
    (hconv : Edit.ofPatch c.options text patch = .ok edits) :
    tree.runWith lib directory defaultConfig stdin words =
      (⟨0, printed c (Edit.listToJson edits), []⟩, tree) := by
  obtain ⟨stdin', hread⟩ := h.exists_readTexts
  rw [runWith, run_of_invocation hwords, carryOut, bind_apply, h.loadConfiguration_eq]
  simp only [execute, hi, adapt_apply, readEdits, bind_apply, hread, hconv, orInvalidPatch_apply]
  rfl

theorem runWith_print (hwords : lib.arguments words = .ok i) (hi : i.command = .apply false false)
    (h : (reformatted lib i (tree.host directory defaultConfig stdin)).1 = .ok (edits, new)) :
    tree.runWith lib directory defaultConfig stdin words =
      (⟨0, new, if edits.isEmpty then "No changes.\n".toList else []⟩, tree) := by
  obtain ⟨stdin', h⟩ := (reads_reformatted lib i).exists_eq h
  rw [runWith, run_of_invocation hwords, carryOut_of_apply lib hi, bind_apply, h]
  simp only [adapt_apply, deliver_print]
  rfl

/-- What is printed without `write` is in the base file with it. -/
theorem runWith_write (hwords : lib.arguments words = .ok i) (hi : i.command = .apply true false)
    (h : (reformatted lib i (tree.host directory defaultConfig stdin)).1 = .ok (edits, new)) :
    (tree.runWith lib directory defaultConfig stdin words).1.exitCode = 0 ∧
      ∃ route, tree.route directory i.base = .ok route ∧
        (tree.runWith lib directory defaultConfig stdin words).2.node? route =
          some (.file (encode new)) := by
  obtain ⟨c, text, patch, hgives, -, happly⟩ := reformatted_eq_ok_iff.1 h
  obtain ⟨route, hroute, hnode⟩ := hgives.exists_route
  obtain ⟨stdin', h⟩ := (reads_reformatted lib i).exists_eq h
  rw [runWith, run_of_invocation hwords, carryOut_of_apply lib hi, bind_apply, h]
  by_cases hne : edits = []
  · subst hne
    obtain rfl : text = new := Except.ok.inj happly
    exact ⟨rfl, route, hroute, hnode⟩
  · have hdeliver : (deliver i.base true false edits new : Stage Failure Unit)
        { tree.host directory defaultConfig stdin with stdin := stdin' } =
          (.ok (), { tree.host directory defaultConfig stdin with
            stdin := stdin'
            tree := tree.update route (encode new) }) :=
      deliver_write hne new hroute hnode
    simp only [adapt_apply, hdeliver]
    exact ⟨rfl, route, hroute, node?_update_self hnode _⟩

end FileTree

/-- Whether a reader takes `words'` for `words` with the flag to write.  Where the one applies edits
and prints, the other one does the same but writes; where the one is wrong, so is the other one; and
where the one asks for a text, the other one asks for the same text. -/
inductive Libraries.AddsWrite (lib : Libraries) (words words' : List Text) : Prop where
  | apply (i : Invocation) (h : lib.arguments words = .ok { i with command := .apply false false })
      (h' : lib.arguments words' = .ok { i with command := .apply true false })
  | usage (report report' : Text) (h : lib.arguments words = .error (.usage report))
      (h' : lib.arguments words' = .error (.usage report'))
  | display (t : Text) (h : lib.arguments words = .error (.display t))
      (h' : lib.arguments words' = .error (.display t))

namespace FileTree

/-- **What a run changes.**  Every file is afterwards as it was, but for the base file of an `apply`
that is told to write, that makes no dry run, that exits with 0 and that has edits.  A run that does
not exit with 0 prints nothing and changes nothing.  A command line that applies and prints and the
one that also says to write both exit with 0 or neither does; and where they do, and ask for no text
such as the help, the one leaves in the base file what the other one prints. -/
theorem run_frame (lib : Libraries) (tree : FileTree) (directory : Route) (defaultConfig : Text)
    (stdin : Option ByteArray) (words : List Text) :
    let run := tree.runWith lib directory defaultConfig stdin
    (∀ r, (run words).2.node? r = tree.node? r ∨
      (run words).1.exitCode = 0 ∧
        ∃ i c text patch edits, lib.arguments words = .ok i ∧ i.command = .apply true false ∧
          tree.route directory i.base = .ok r ∧
          (tree.host directory defaultConfig stdin).Gives lib i c text patch ∧
          Edit.ofPatch c.options text patch = .ok edits ∧ edits ≠ []) ∧
    ((run words).1.exitCode ≠ 0 → (run words).1.stdout = [] ∧ (run words).2 = tree) ∧
    ∀ words', lib.AddsWrite words words' →
      ((run words).1.exitCode = 0 ↔ (run words').1.exitCode = 0) ∧
      ∀ i, lib.arguments words = .ok i → (run words).1.exitCode = 0 →
        ∃ route, tree.route directory i.base = .ok route ∧
          (run words').2.node? route = some (.file (encode (run words).1.stdout)) := by
  intro run
  refine ⟨fun r => node?_runWith r, ?_, ?_⟩
  · intro hexit
    obtain ⟨-, hout, htree⟩ | ⟨hok, -⟩ | ⟨hok, -⟩ :=
      runWith_cases lib tree directory defaultConfig stdin words
    · exact ⟨hout, htree⟩
    · exact absurd hok hexit
    · exact absurd hok hexit
  · intro words' hadds
    let host := tree.host directory defaultConfig stdin
    cases hadds with
    | apply i hwords hwords' =>
      -- What is come to does not depend on the command, and so it is the same in both runs.
      cases hresult : (reformatted lib i host).1 with
      | error line =>
        have hprint : run words = (⟨1, [], line⟩, tree) := runWith_of_error hwords rfl hresult
        have hwrite : run words' = (⟨1, [], line⟩, tree) := runWith_of_error hwords' rfl hresult
        rw [hprint, hwrite]
        exact ⟨Iff.rfl, fun _ _ h => absurd h Nat.one_ne_zero⟩
      | ok result =>
        have hprint : run words = (_, tree) := runWith_print hwords rfl hresult
        obtain ⟨hexit, hroute⟩ := runWith_write hwords' rfl hresult
        rw [hprint]
        refine ⟨iff_of_true rfl hexit, fun i' hi' _ => ?_⟩
        obtain rfl := Except.ok.inj (hwords.symm.trans hi')
        exact hroute
    | usage report report' hwords hwords' =>
      have hrun : run words = (⟨2, [], report⟩, tree) := runWith_of_usage hwords
      have hrun' : run words' = (⟨2, [], report'⟩, tree) := runWith_of_usage hwords'
      rw [hrun, hrun']
      exact ⟨Iff.rfl, fun _ _ h => absurd h (Nat.succ_ne_zero 1)⟩
    | display t hwords hwords' =>
      have hrun : run words = (⟨0, t, []⟩, tree) := runWith_of_display hwords
      have hrun' : run words' = (⟨0, t, []⟩, tree) := runWith_of_display hwords'
      rw [hrun, hrun']
      exact ⟨Iff.rfl, fun i hi => by cases hwords.symm.trans hi⟩

/-- With `--write` the file gets the text that is printed without it; a file that is not there makes
the run fail. -/
theorem run_frame_second_line :
    let tree : FileTree := ⟨[(["a".toList], .file (encode "x\ny\n".toList))]⟩
    let patch := "@@ -2 +2 @@\n-y\n+é\n".toList
    let run := tree.runWith .bundled [] "c".toList (some (encode patch))
    let options := ["--ignore-config".toList, "--original".toList, "a".toList]
    (run ("apply".toList :: options)).1.stdout = "x\né\n".toList ∧
      (run ("apply".toList :: "--write".toList :: options)).2.node? ["a".toList] =
        some (.file (encode "x\né\n".toList)) ∧
      (run ["edits".toList, "--original".toList, "b".toList]).2 = tree := by
  intro tree patch run options
  let i : Invocation := ⟨{ ignoreConfig := true }, .apply false false, "a".toList, none⟩
  let edits : List Edit := [.replace (.ofLine 1) (.ofLine 2) "é\n".toList]
  have hwords : Libraries.bundled.arguments ("apply".toList :: options) = .ok i := by decide
  have hadds : Libraries.bundled.AddsWrite ("apply".toList :: options)
      ("apply".toList :: "--write".toList :: options) :=
    .apply i hwords (by decide)
  have hgives : (tree.host [] "c".toList (some (encode patch))).Gives .bundled i {}
      "x\ny\n".toList patch := by
    refine ⟨rfl, ?_, ?_⟩
    · exact readBase_eq_ok_iff.2 (Host.readText_eq_ok_iff.2 ⟨["a".toList], rfl, rfl⟩)
    · exact readPatch_none rfl
  have hconv : Edit.ofPatch ({} : Configuration).options "x\ny\n".toList patch = .ok edits := by
    have hparse : Patch.parse patch =
        .ok [⟨⟨1, 1⟩, ⟨1, 1⟩, [⟨.delete, ['y']⟩, ⟨.insert, ['é']⟩]⟩] := by decide
    rw [Edit.ofPatch_eq_ofHunks hparse, Edit.ofHunks, Edit.inOrder_terminate,
      Edit.inOrder_of_pairwise (by decide)]
    rfl
  have happly : Edit.apply "x\ny\n".toList edits .utf16 = .ok "x\né\n".toList := by decide
  have hprint : run ("apply".toList :: options) = (⟨0, "x\né\n".toList, []⟩, tree) :=
    runWith_print hwords rfl (reformatted_eq_ok_iff.2 ⟨_, _, _, hgives, hconv, happly⟩)
  obtain ⟨-, -, hsame⟩ := run_frame .bundled tree [] "c".toList (some (encode patch))
    ("apply".toList :: options)
  obtain ⟨route, hroute, hnode⟩ := (hsame _ hadds).2 i hwords (congrArg (·.1.exitCode) hprint)
  obtain rfl : ["a".toList] = route := Except.ok.inj hroute
  have hout : (run ("apply".toList :: options)).1.stdout = "x\né\n".toList := by rw [hprint]
  refine ⟨hout, by rw [hnode, hout], ?_⟩
  have hfail := (run_frame .bundled tree [] "c".toList (some (encode patch))
    ["edits".toList, "--original".toList, "b".toList]).2.1
  exact (hfail Nat.one_ne_zero).2

/-- A command line that asks for the version comes to that, with `--write` as without; the file is
not what is printed. -/
theorem not_printed_of_version :
    let tree : FileTree := ⟨[(["a".toList], .file (encode "x\n".toList))]⟩
    let run := tree.runWith .bundled [] "c".toList none
    let words := ["--version".toList, "apply".toList, "--original".toList, "a".toList]
    (run words).1.exitCode = 0 ∧ (run (words ++ ["--write".toList])).1.exitCode = 0 ∧
      (run (words ++ ["--write".toList])).2.node? ["a".toList] ≠
        some (.file (encode (run words).1.stdout)) := by
  intro tree run words
  refine ⟨rfl, rfl, fun h => ?_⟩
  have hnode : (run (words ++ ["--write".toList])).2.node? ["a".toList] =
      some (.file (encode "x\n".toList)) := rfl
  have hout : (run words).1.stdout = versionText := rfl
  rw [hnode, hout] at h
  have hbytes : encode "x\n".toList = encode versionText := by
    injection h with h
    injection h with h
  have htext := (decode_eq_ok_iff.2 hbytes).symm.trans (decode_eq_ok_iff.2 rfl)
  revert htext
  decide

end FileTree

end HunkEdits.CommandLine
