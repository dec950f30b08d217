import HunkEdits.Edit.Json
import HunkEdits.Proofs.CommandRun
import HunkEdits.Proofs.JsonRoundTrip
import HunkEdits.Proofs.Runs

/-!
# Edits as JSON texts

Edits whose coordinates are 64-bit words are read back from what they are printed as
(`Edit.parseList?_write`), and only such edits can be read (`Edit.fits_of_parseList?`).  So what is
read and printed again does not change when that is done once more.  The edits of a patch are such
edits (`Edit.fits_of_ofPatch`), and so they come through the output of a command to what they come
to inside the program (`Edit.json_lossless`).
-/

namespace HunkEdits

open Json Text

namespace Position

variable {p : Position} {v : Json}

/-- Whether both coordinates of a position are 64-bit words. -/
def Fits (p : Position) : Prop :=
  p.line ≤ Decimal.limit ∧ p.character ≤ Decimal.limit

instance (p : Position) : Decidable p.Fits :=
  inferInstanceAs (Decidable (_ ∧ _))

theorem isPlain_toJson (p : Position) : p.toJson.IsPlain := by
  refine .obj (List.forall_mem_cons.2 ⟨.nat p.line, ?_⟩)
  exact List.forall_mem_singleton.2 (.nat p.character)

theorem ofJson?_toJson (hp : p.Fits) : ofJson? p.toJson = some p := by
  have hfields : fields? ["line".toList, "character".toList] p.toJson =
      some [some (.nat p.line), some (.nat p.character)] := rfl
  rw [ofJson?, hfields]
  simp [nat?, hp.1, hp.2]

theorem le_limit_of_nat? {n : Nat} (h : v.nat? = some n) : n ≤ Decimal.limit := by
  cases v with
  | nat m =>
    rw [nat?] at h
    split at h
    · rename_i hm
      rwa [← Option.some.inj h]
    · cases h
  | _ => cases h

theorem fits_of_ofJson? (h : ofJson? v = some p) : p.Fits := by
  simp only [ofJson?, Option.bind_eq_bind, Option.bind_eq_some_iff] at h
  obtain ⟨fields, -, h⟩ := h
  split at h
  · simp only [Option.bind_eq_some_iff, Option.pure_def, Option.some.injEq] at h
    obtain ⟨line, hline, character, hcharacter, rfl⟩ := h
    exact ⟨le_limit_of_nat? hline, le_limit_of_nat? hcharacter⟩
  · cases h

end Position

namespace Edit

variable {e : Edit} {edits : List Edit} {v : Json} {t : Text}

/-- Whether all coordinates of an edit are 64-bit words. -/
def Fits (e : Edit) : Prop :=
  e.start.Fits ∧ ∀ p ∈ e.stop, p.Fits

instance (e : Edit) : Decidable e.Fits :=
  inferInstanceAs (Decidable (_ ∧ ∀ p ∈ e.stop, p.Fits))

theorem isPlain_toJson (e : Edit) : e.toJson.IsPlain := by
  obtain ⟨action, start, stop, text⟩ := e
  refine .obj ?_
  have hstop : ∀ m ∈ (stop.map fun p => ("end".toList, p.toJson)).toList, m.2.IsPlain := by
    cases stop with
    | none => exact List.forall_mem_nil _
    | some p => exact List.forall_mem_singleton.2 p.isPlain_toJson
  refine List.forall_mem_append.2 ⟨List.forall_mem_append.2 ⟨?_, hstop⟩, ?_⟩
  · refine List.forall_mem_cons.2 ⟨.str _, ?_⟩
    exact List.forall_mem_singleton.2 start.isPlain_toJson
  · exact List.forall_mem_singleton.2 (.str text)

theorem isPlain_listToJson (edits : List Edit) : (listToJson edits).IsPlain := by
  refine .arr ?_
  rw [List.forall_mem_map]
  exact fun e _ => e.isPlain_toJson

theorem ofName?_name (a : Action) : Action.ofName? a.name = some a := by
  cases a <;> rfl

theorem ofJson?_toJson (he : e.Fits) : ofJson? e.toJson = some e := by
  obtain ⟨action, start, stop, text⟩ := e
  have hstart : Position.ofJson? start.toJson = some start := Position.ofJson?_toJson he.1
  have hfields : fields? ["action".toList, "start".toList, "end".toList, "text".toList]
      (toJson ⟨action, start, stop, text⟩) = some [some (.str action.name), some start.toJson,
        stop.map Position.toJson, some (.str text)] := by
    cases stop <;> rfl
  have hstop : stopOfJson? (stop.map Position.toJson) = some stop := by
    cases stop with
    | none => rfl
    | some p =>
      have hp : Position.ofJson? p.toJson = some p := Position.ofJson?_toJson (he.2 p rfl)
      have hread : stopOfJson? (some p.toJson) = (Position.ofJson? p.toJson).map some := rfl
      rw [Option.map_some, hread, hp]
      rfl
  rw [ofJson?, hfields]
  simp [choice?, str?, ofName?_name, hstart, hstop]

theorem fits_of_stopOfJson? {v : Option Json} {stop : Option Position}
    (h : stopOfJson? v = some stop) : ∀ p ∈ stop, p.Fits := by
  intro p hp
  rw [Option.mem_def.1 hp] at h
  unfold stopOfJson? at h
  split at h
  · cases h
  · cases h
  · obtain ⟨q, hq, hqp⟩ := Option.map_eq_some_iff.1 h
    rw [← Option.some.inj hqp]
    exact Position.fits_of_ofJson? hq

/-- The coordinates of an edit that is read are 64-bit words. -/
theorem fits_of_ofJson? (h : ofJson? v = some e) : e.Fits := by
  simp only [ofJson?, Option.bind_eq_bind, Option.bind_eq_some_iff] at h
  obtain ⟨fields, -, h⟩ := h
  split at h
  · simp only [Option.bind_eq_some_iff, Option.pure_def, Option.some.injEq] at h
    obtain ⟨_, -, _, -, start, hstart, stop, hstop, _, -, rfl⟩ := h
    exact ⟨Position.fits_of_ofJson? hstart, fits_of_stopOfJson? hstop⟩
  · cases h

/-! ### Lists of edits -/

theorem mapM_ofJson?_toJson (h : ∀ e ∈ edits, e.Fits) :
    (edits.map toJson).mapM ofJson? = some edits := by
  induction edits with
  | nil => rfl
  | cons e edits ih =>
    obtain ⟨he, h⟩ := List.forall_mem_cons.1 h
    rw [List.map_cons, List.mapM_cons, ofJson?_toJson he, ih h]
    rfl

theorem fits_of_mapM_ofJson? {vs : List Json} (h : vs.mapM ofJson? = some edits) :
    ∀ e ∈ edits, e.Fits := by
  induction vs generalizing edits with
  | nil =>
    obtain rfl := Option.some.inj h
    exact List.forall_mem_nil _
  | cons v vs ih =>
    simp only [List.mapM_cons, Option.bind_eq_bind, Option.bind_eq_some_iff, Option.pure_def,
      Option.some.injEq] at h
    obtain ⟨e, he, es, hes, rfl⟩ := h
    exact List.forall_mem_cons.2 ⟨fits_of_ofJson? he, ih hes⟩

/-- Edits that are printed are read back, in either layout and with blanks behind them. -/
theorem parseList?_write (h : ∀ e ∈ edits, e.Fits) (l : Layout) {blank : Text}
    (hblank : ∀ c ∈ blank, isSpace c = true) :
    parseList? ((listToJson edits).write l ++ blank) = some edits := by
  rw [parseList?, parse?_write (isPlain_listToJson edits) l hblank]
  exact mapM_ofJson?_toJson h

theorem fits_of_parseList? (h : parseList? t = some edits) : ∀ e ∈ edits, e.Fits := by
  simp only [parseList?, Option.bind_eq_bind, Option.bind_eq_some_iff] at h
  obtain ⟨_, _, _, _, h⟩ := h
  exact fits_of_mapM_ofJson? h

/-- Reads edits and prints them again. -/
def rewrite? (l : Layout) (t : Text) : Option Text :=
  (parseList? t).map fun edits => (listToJson edits).write l

/-- What has been printed again does not change the next time. -/
theorem rewrite?_rewrite? (l l' : Layout) (t : Text) :
    (rewrite? l t).bind (rewrite? l') = rewrite? l' t := by
  unfold rewrite?
  cases h : parseList? t with
  | none => rfl
  | some edits =>
    have hread := parseList?_write (fits_of_parseList? h) l (List.forall_mem_nil _)
    rw [List.append_nil] at hread
    rw [Option.map_some, Option.bind_some, hread]

end Edit

/-! ### The edits of a patch -/

theorem Position.fits_anchor (line : Nat) : (anchor line).Fits :=
  ⟨Nat.le_of_lt_succ (line_anchor_lt line), Nat.zero_le _⟩

theorem Run.fits_wrap_edit (r : Run) : r.edit.wrap.Fits := by
  constructor
  · have hstart : r.edit.wrap.start = .anchor r.line := congrArg Position.wrap r.start_edit
    rw [hstart]
    exact Position.fits_anchor r.line
  · intro p hp
    obtain ⟨q, hq, rfl⟩ := Option.map_eq_some_iff.1 hp
    rw [Run.eq_of_mem_stop_edit hq]
    exact Position.fits_anchor r.stop

namespace Edit

open CommandLine

/-- The edits of a patch have coordinates that are words. -/
theorem fits_of_ofPatch {o : Options} {text patch : Text} {edits : List Edit}
    (hconv : ofPatch o text patch = .ok edits) : ∀ e ∈ edits, e.Fits := by
  obtain ⟨hunks, hparse, hrun⟩ := bind_eq_ok_iff.1 hconv
  obtain rfl := eq_edits_of_ofHunks (Patch.newline_notMem_of_parse hparse) hrun
  intro e he
  obtain ⟨h, -, he⟩ := List.mem_flatMap.1 he
  obtain ⟨f, hf, rfl⟩ := List.mem_map.1 he
  obtain ⟨r, -, rfl⟩ := List.mem_map.1 hf
  exact r.fits_wrap_edit

/-- **Printed edits stand for themselves.**  Edits are read back from what they are printed as, in
either layout; reading and printing once more changes nothing; and to apply the edits that the
command for them prints is to do what `apply` does. -/
theorem json_lossless :
    (∀ edits : List Edit, (∀ e ∈ edits, e.Fits) → ∀ l,
      parseList? ((listToJson edits).write l) = some edits) ∧
    (∀ (l l' : Layout) (t : Text), (rewrite? l t).bind (rewrite? l') = rewrite? l' t) ∧
    ∀ (lib : Libraries) (tree : FileTree) (directory : Route) (defaultConfig : Text)
      (stdin : Option ByteArray) (words words' : List Text) (i : Invocation) (c : Configuration)
      (text patch : Text) (edits : List Edit),
      lib.arguments words = .ok { i with command := .edits } →
      lib.arguments words' = .ok { i with command := .apply false false } →
      (tree.host directory defaultConfig stdin).Gives lib i c text patch →
      ofPatch c.options text patch = .ok edits →
      let run := tree.runWith lib directory defaultConfig stdin
      (run words).1.exitCode = 0 ∧
      ∃ decoded, parseList? (run words).1.stdout = some decoded ∧
        run words' =
          match apply text decoded c.encoding with
          | .ok new => (⟨0, new, if decoded.isEmpty then "No changes.\n".toList else []⟩, tree)
          | .error err => (⟨1, [], (Failure.invalidPatch err).complaint⟩, tree) := by
  refine ⟨?_, rewrite?_rewrite?, ?_⟩
  · intro edits h l
    have hread := parseList?_write h l (List.forall_mem_nil _)
    rwa [List.append_nil] at hread
  · intro lib tree directory defaultConfig stdin words words' i c text patch edits hwords hwords'
      hgives hconv run
    have hprint : run words = (⟨0, printed c (listToJson edits), []⟩, tree) :=
      FileTree.runWith_edits hwords rfl (hgives.of_command _) hconv
    rw [hprint]
    refine ⟨rfl, edits, ?_, ?_⟩
    · exact parseList?_write (fits_of_ofPatch hconv) _ (List.forall_mem_singleton.2 rfl)
    · have hgives := hgives.of_command (.apply false false)
      have hresult := hgives.reformatted_eq
      cases happly : apply text edits c.encoding with
      | ok new =>
        exact FileTree.runWith_print hwords' rfl
          (reformatted_eq_ok_iff.2 ⟨c, text, patch, hgives, hconv, happly⟩)
      | error err =>
        have happly' : apply text edits c.options.encoding = .error err := happly
        have hreformat : reformat c.options text patch = .error err := by
          rw [reformat, hconv]
          simp only [bind, Except.bind, happly']
        rw [hreformat] at hresult
        exact FileTree.runWith_of_error hwords' rfl hresult

/-- An insertion with an end, a deletion with a text but no end, the greatest coordinate, and
characters of each kind that JSON treats in its own way; and a patched line with such characters.
-/
theorem json_lossless_escapes :
    let edits : List Edit :=
      [⟨.insert, ⟨0, 18446744073709551615⟩, some ⟨1, 2⟩, "\x00\x1f\"\\".toList⟩,
        ⟨.delete, ⟨7, 0⟩, none, "\t/\x7fé😀".toList⟩]
    let patch := "@@ -1 +1 @@\n-a\n+\x00\"😀\n".toList
    let tree : FileTree := ⟨[(["f".toList], .file (encode "a\n".toList))]⟩
    let run := tree.runWith .bundled [] "c".toList (some (encode patch))
    let options := ["--ignore-config".toList, "--original".toList, "f".toList]
    parseList? ((listToJson edits).write .pretty) = some edits ∧
      (run ("edits".toList :: options)).1.exitCode = 0 ∧
      ∃ decoded, parseList? (run ("edits".toList :: options)).1.stdout = some decoded ∧
        run ("apply".toList :: options) =
          match apply "a\n".toList decoded .utf16 with
          | .ok new => (⟨0, new, if decoded.isEmpty then "No changes.\n".toList else []⟩, tree)
          | .error err => (⟨1, [], (Failure.invalidPatch err).complaint⟩, tree) := by
  intro edits patch tree run options
  let i : Invocation := ⟨{ ignoreConfig := true }, .edits, "f".toList, none⟩
  have hedits : Libraries.bundled.arguments ("edits".toList :: options) = .ok i := by decide
  have happly : Libraries.bundled.arguments ("apply".toList :: options) =
      .ok { i with command := .apply false false } := by decide
  have hgives : (tree.host [] "c".toList (some (encode patch))).Gives .bundled i {}
      "a\n".toList patch :=
    ⟨rfl, readBase_eq_ok_iff.2 (Host.readText_eq_ok_iff.2 ⟨["f".toList], rfl, rfl⟩),
      readPatch_none rfl⟩
  have hconv : ofPatch ({} : Configuration).options "a\n".toList patch =
      .ok [.replace (.ofLine 0) (.ofLine 1) "\x00\"😀\n".toList] := by
    have hparse : Patch.parse patch =
        .ok [⟨⟨0, 1⟩, ⟨0, 1⟩, [⟨.delete, ['a']⟩, ⟨.insert, "\x00\"😀".toList⟩]⟩] := by decide
    rw [ofPatch_eq_ofHunks hparse, ofHunks, inOrder_terminate, inOrder_of_pairwise (by decide)]
    rfl
  obtain ⟨hread, -, hrun⟩ := json_lossless
  refine ⟨hread edits (by decide) .pretty, ?_⟩
  exact hrun .bundled tree [] _ _ _ _ i {} _ patch _ hedits happly hgives hconv

end Edit

end HunkEdits
