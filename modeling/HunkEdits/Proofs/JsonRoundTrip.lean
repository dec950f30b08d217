import HunkEdits.Json.Reader

/-!
# Printed values are read back

A value that is printed is read back as it was (`Json.parse?_write`), in either layout.  Between its
text and itself stand its tokens (`Json.tokens`): the text scans to them, since no gap, escape or
digit is lost (`Json.scans_of_isPlain`), and the machine that reads them comes to the value with its
stack as it was (`Json.reads_of_isPlain`).
-/

namespace HunkEdits.Json

open Text

/-! ### Strings -/

theorem hexValue?_digitChar : ∀ n < 16, hexValue? (Nat.digitChar n) = some n := by
  decide

/-- The escape of a control character stands for it. -/
theorem escape?_hexPair {c : Char} (hc : c.toNat < 0x20) (t : Text) :
    escape? ('u' :: '0' :: '0' :: (hexPair c.toNat ++ t)) = some (some c, t) := by
  have hzero : hexValue? '0' = some 0 := by decide
  have hunit : unit? ('0' :: '0' :: (hexPair c.toNat ++ t)) = some (c.toNat, t) := by
    have h₁ := hexValue?_digitChar (c.toNat / 16) (by omega)
    have h₂ := hexValue?_digitChar (c.toNat % 16) (by omega)
    simp only [hexPair, List.cons_append, List.nil_append, unit?, hzero, h₁, h₂,
      Option.bind_eq_bind, Option.bind_some, Option.pure_def]
    rw [show ((0 * 16 + 0) * 16 + c.toNat / 16) * 16 + c.toNat % 16 = c.toNat by omega]
  have hcode : codePoint? ('0' :: '0' :: (hexPair c.toNat ++ t)) = some (some c, t) := by
    rw [codePoint?, hunit]
    simp only [Option.bind_eq_bind, Option.bind_some]
    rw [if_pos (.inl (by omega)), Char.ofNat_toNat]
    rfl
  simp [escape?, hcode]

theorem stringBody?_escape {t r : Text} {d : Option Char} (h : escape? t = some (d, r))
    (read : Option Text) : stringBody? read ('\\' :: t) =
      stringBody? (read.bind fun s => d.map fun d => d :: s) r := by
  rw [stringBody?]
  simp only [Char.reduceEq, if_false, if_true]
  split
  · simp_all
  · simp_all

/-- A character is written as it is, or as an escape that stands for it. -/
theorem writeChar_cases (c : Char) :
    (writeChar c = [c] ∧ c ≠ '"' ∧ c ≠ '\\' ∧ ¬ c.toNat < 0x20) ∨
      ∃ body, writeChar c = '\\' :: body ∧ ∀ t, escape? (body ++ t) = some (some c, t) := by
  by_cases hnamed : c ∈ ['"', '\\', '\x08', '\x0c', '\n', '\r', '\t']
  · right
    simp only [List.mem_cons, List.not_mem_nil, or_false] at hnamed
    rcases hnamed with rfl | rfl | rfl | rfl | rfl | rfl | rfl <;> exact ⟨_, rfl, fun _ => rfl⟩
  · simp only [List.mem_cons, List.not_mem_nil, or_false, not_or] at hnamed
    by_cases hc : c.toNat < 0x20
    · right
      exact ⟨'u' :: '0' :: '0' :: hexPair c.toNat, by simp [writeChar, hnamed, hc],
        escape?_hexPair hc⟩
    · left
      exact ⟨by simp [writeChar, hnamed, hc], hnamed.1, hnamed.2.1, hc⟩

theorem stringBody?_writeChar (read : Text) (c : Char) (t : Text) :
    stringBody? (some read) (writeChar c ++ t) = stringBody? (some (c :: read)) t := by
  rcases writeChar_cases c with ⟨hwrite, hquote, hslash, hcontrol⟩ | ⟨body, hwrite, hescape⟩
  · rw [hwrite, List.singleton_append, stringBody?]
    simp only [hquote, hslash, hcontrol, if_false, Option.map_some]
  · rw [hwrite, List.cons_append, stringBody?_escape (hescape t)]
    rfl

/-- A string that is written is read up to its closing quote. -/
theorem stringBody?_flatMap_writeChar (read s t : Text) :
    stringBody? (some read) (s.flatMap writeChar ++ '"' :: t) =
      some (some (read.reverse ++ s), t) := by
  induction s generalizing read with
  | nil => simp [stringBody?]
  | cons c s ih =>
    rw [List.flatMap_cons, List.append_assoc, stringBody?_writeChar, ih]
    simp

/-! ### Numbers -/

theorem head?_ofNat {n : Nat} (h : n ≠ 0) : (Decimal.ofNat n).head? ≠ some '0' := by
  induction n using Nat.strongRecOn with
  | ind n ih =>
    rw [Decimal.ofNat, Nat.toDigits_eq_if (by decide)]
    split
    · rename_i hn
      have hdigit : ∀ k < 10, k ≠ 0 → Nat.digitChar k ≠ '0' := by decide
      simpa using hdigit n hn h
    · have hne : Nat.toDigits 10 (n / 10) ≠ [] := Nat.toDigits_ne_nil
      obtain ⟨c, ds, hds⟩ := List.exists_cons_of_ne_nil hne
      have hhead := ih (n / 10) (by omega) (by omega)
      rw [Decimal.ofNat, hds] at hhead
      rwa [hds]

theorem isUnsigned_ofNat (n : Nat) : isUnsigned (Decimal.ofNat n) = true := by
  have hspan : Decimal.span (Decimal.ofNat n) = (Decimal.ofNat n, []) := by
    have := Decimal.span_ofNat_append (n := n) (t := []) (by simp)
    rwa [List.append_nil] at this
  have hempty : (Decimal.ofNat n).isEmpty = false := by simp [Decimal.ofNat_ne_nil]
  by_cases hn : n = 0
  · subst hn
    rfl
  · simp [isUnsigned, hspan, hempty, head?_ofNat hn, isFraction, isExponent]

theorem word?_ofNat (n : Nat) : word? (Decimal.ofNat n) = some (.nat n) := by
  have hdigit : ∀ c ∈ Decimal.ofNat n, c.isDigit = true := fun _ => Decimal.isDigit_of_mem_ofNat
  have hne : ∀ w : Text, w.all Char.isDigit = false → Decimal.ofNat n ≠ w := by
    rintro w hw rfl
    rw [List.all_eq_true.2 hdigit] at hw
    cases hw
  have hsign : dropLead? ['-'] (Decimal.ofNat n) = none := by
    rw [Option.eq_none_iff_forall_ne_some]
    intro t ht
    have := hdigit '-' (by simp [dropLead?_eq_some_iff.1 ht])
    cases this
  rw [word?, if_neg (hne _ (by decide)), if_neg (hne _ (by decide)), if_neg (hne _ (by decide)),
    hsign, Option.getD_none, if_pos (isUnsigned_ofNat n), if_pos (List.all_eq_true.2 hdigit)]
  rw [Decimal.ofNat, Nat.ofDigitChars_ten_toDigits]

theorem isWordChar_of_isDigit {c : Char} (hc : c.isDigit = true) : isWordChar c = true := by
  have hnone : [' ', '\t', '\n', '\r', '[', ']', '\x7b', '\x7d', ',', ':', '"'].all
      (!Char.isDigit ·) = true := by decide
  have hne : c ∉ [' ', '\t', '\n', '\r', '[', ']', '\x7b', '\x7d', ',', ':', '"'] := by
    intro hmem
    have hdigit := List.all_eq_true.1 hnone c hmem
    rw [hc] at hdigit
    cases hdigit
  simpa [isWordChar, isSpace, and_assoc] using hne

/-! ### Tokens -/

/-- Values that have a form of their own: no number that is kept as it is written, and nothing that
is no text. -/
inductive IsPlain : Json → Prop
  | null : IsPlain null
  | bool (b : Bool) : IsPlain (bool b)
  | nat (n : Nat) : IsPlain (nat n)
  | str (t : Text) : IsPlain (str t)
  | arr {items : List Json} (h : ∀ v ∈ items, IsPlain v) : IsPlain (arr items)
  | obj {members : List (Text × Json)} (h : ∀ m ∈ members, IsPlain m.2) : IsPlain (obj members)

mutual

/-- The tokens of a value. -/
def tokens : Json → List Token
  | str t => [.string (some t)]
  | arr [] => [.openArr, .closeArr]
  | arr (v :: vs) => .openArr :: (tokens v ++ itemTokens vs)
  | obj [] => [.openObj, .closeObj]
  | obj ((k, v) :: ms) => .openObj :: .string (some k) :: .colon :: (tokens v ++ memberTokens ms)
  | v => [.scalar v]

/-- The tokens of an array behind its first item. -/
def itemTokens : List Json → List Token
  | [] => [.closeArr]
  | v :: vs => .comma :: (tokens v ++ itemTokens vs)

/-- The tokens of an object behind its first member. -/
def memberTokens : List (Text × Json) → List Token
  | [] => [.closeObj]
  | (k, v) :: ms => .comma :: .string (some k) :: .colon :: (tokens v ++ memberTokens ms)

end

/-! ### Scanning -/

/-- Whether a word ends where a text begins. -/
def EndsWord (t : Text) : Prop :=
  ∀ c ∈ t.head?, isWordChar c = false

theorem scanFrom_space {c : Char} (hc : isSpace c = true) (read : List Token) (t : Text) :
    scanFrom read (c :: t) = scanFrom read t := by
  rw [scanFrom, if_pos hc]

theorem scanFrom_spaces {blank : Text} (h : ∀ c ∈ blank, isSpace c = true) (read : List Token)
    (t : Text) : scanFrom read (blank ++ t) = scanFrom read t := by
  induction blank with
  | nil => rfl
  | cons c blank ih =>
    obtain ⟨hc, h⟩ := List.forall_mem_cons.1 h
    rw [List.cons_append, scanFrom_space hc, ih h]

theorem scanFrom_token {c : Char} {t r : Text} {k : Token} (hc : isSpace c = false)
    (h : token? c t = some (k, r)) (read : List Token) :
    scanFrom read (c :: t) = scanFrom (k :: read) r := by
  rw [scanFrom, if_neg (by simp [hc])]
  split
  · simp_all
  · simp_all

theorem scanFrom_mark {c : Char} {k : Token} (hc : isSpace c = false) (hk : mark? c = some k)
    (read : List Token) (t : Text) : scanFrom read (c :: t) = scanFrom (k :: read) t :=
  scanFrom_token hc (by rw [token?, hk]) read

theorem scanFrom_string (read : List Token) (s t : Text) :
    scanFrom read (writeString s ++ t) = scanFrom (.string (some s) :: read) t := by
  have htoken : token? '"' (s.flatMap writeChar ++ '"' :: t) = some (.string (some s), t) := by
    have hmark : mark? '"' = none := by rfl
    rw [token?, hmark]
    simp [stringBody?_flatMap_writeChar]
  rw [← scanFrom_token (by decide) htoken]
  simp [writeString]

/-- A word is a token where it ends. -/
theorem scanFrom_word {w t : Text} {v : Json} (hword : word? w = some v)
    (hall : ∀ c ∈ w, isWordChar c = true) (ht : EndsWord t) (read : List Token) :
    scanFrom read (w ++ t) = scanFrom (.scalar v :: read) t := by
  cases w with
  | nil => cases hword
  | cons c w =>
    obtain ⟨hc, hall⟩ := List.forall_mem_cons.1 hall
    have hspace : isSpace c = false := by
      simp_all [isWordChar]
    have hmark : mark? c = none ∧ c ≠ '"' := by
      simp_all [isWordChar, mark?]
    have htake : (w ++ t).takeWhile isWordChar = w ∧ (w ++ t).dropWhile isWordChar = t := by
      rw [List.takeWhile_append_of_pos hall, List.dropWhile_append_of_pos hall]
      cases t with
      | nil => simp
      | cons d t => simp [ht d (by simp)]
    have htoken : token? c (w ++ t) = some (.scalar v, t) := by
      rw [token?, hmark.1]
      simp [hmark.2, htake, hword]
    exact scanFrom_token hspace htoken read

/-! ### Printed values -/

section

variable (l : Layout) (level : Nat) (read : List Token)

theorem scanFrom_gap (t : Text) : scanFrom read (l.gap level ++ t) = scanFrom read t := by
  apply scanFrom_spaces
  cases l with
  | compact => exact List.forall_mem_nil _
  | pretty =>
    refine List.forall_mem_cons.2 ⟨by decide, ?_⟩
    intro c hc
    rw [List.eq_of_mem_replicate hc]
    rfl

theorem endsWord_gap {c : Char} (hc : isWordChar c = false) (t : Text) :
    EndsWord (l.gap level ++ c :: t) := by
  cases l with
  | compact => simpa [EndsWord, Layout.gap] using hc
  | pretty => simp [EndsWord, Layout.gap, isWordChar, isSpace]

theorem scanFrom_colon (t : Text) :
    scanFrom read (l.colon ++ t) = scanFrom (.colon :: read) t := by
  cases l with
  | compact => exact scanFrom_mark rfl rfl read t
  | pretty => exact (scanFrom_mark rfl rfl read _).trans (scanFrom_space rfl _ t)

theorem endsWord_renderItems (vs : List Json) (t : Text) :
    EndsWord (renderItems l level vs ++ ']' :: t) := by
  cases vs with
  | nil => exact endsWord_gap l level (by decide) t
  | cons v vs => simp [renderItems, EndsWord, isWordChar]

theorem endsWord_renderMembers (ms : List (Text × Json)) (t : Text) :
    EndsWord (renderMembers l level ms ++ '\x7d' :: t) := by
  cases ms with
  | nil => exact endsWord_gap l level (by decide) t
  | cons m ms => simp [renderMembers, EndsWord, isWordChar]

/-- Whether a value that is printed scans to its tokens. -/
def Scans (v : Json) : Prop :=
  ∀ level read t, EndsWord t →
    scanFrom read (render l level v ++ t) = scanFrom ((tokens v).reverse ++ read) t

theorem scanFrom_renderItems {vs : List Json} (h : ∀ v ∈ vs, Scans l v) (t : Text) :
    scanFrom read (renderItems l level vs ++ ']' :: t) =
      scanFrom ((itemTokens vs).reverse ++ read) t := by
  induction vs generalizing read with
  | nil =>
    rw [renderItems, scanFrom_gap]
    exact scanFrom_mark rfl rfl read t
  | cons v vs ih =>
    obtain ⟨hv, h⟩ := List.forall_mem_cons.1 h
    simp only [renderItems, List.append_assoc, List.cons_append, List.nil_append]
    rw [scanFrom_mark (c := ',') rfl rfl, scanFrom_gap,
      hv _ _ _ (endsWord_renderItems l level vs t), ih _ h]
    simp [itemTokens]

theorem scanFrom_renderMembers {ms : List (Text × Json)} (h : ∀ m ∈ ms, Scans l m.2) (t : Text) :
    scanFrom read (renderMembers l level ms ++ '\x7d' :: t) =
      scanFrom ((memberTokens ms).reverse ++ read) t := by
  induction ms generalizing read with
  | nil =>
    rw [renderMembers, scanFrom_gap]
    exact scanFrom_mark rfl rfl read t
  | cons m ms ih =>
    obtain ⟨k, v⟩ := m
    obtain ⟨hv, h⟩ := List.forall_mem_cons.1 h
    simp only [renderMembers, List.append_assoc, List.cons_append, List.nil_append]
    rw [scanFrom_mark (c := ',') rfl rfl, scanFrom_gap, scanFrom_string, scanFrom_colon,
      hv _ _ _ (endsWord_renderMembers l level ms t), ih _ h]
    simp [memberTokens]

end

/-- **A printed value scans to its tokens**, in front of any text at which a word ends. -/
theorem scans_of_isPlain (l : Layout) {v : Json} (hv : IsPlain v) : Scans l v := by
  induction hv with
  | null =>
    intro level read t ht
    rw [render]
    exact scanFrom_word rfl (List.all_eq_true.1 rfl) ht read
  | bool b =>
    intro level read t ht
    cases b with
    | true =>
      rw [render]
      exact scanFrom_word rfl (List.all_eq_true.1 rfl) ht read
    | false =>
      rw [render]
      exact scanFrom_word rfl (List.all_eq_true.1 rfl) ht read
  | nat n =>
    intro level read t ht
    refine scanFrom_word (word?_ofNat n) ?_ ht read
    intro c hc
    have hdigit := Decimal.isDigit_of_mem_ofNat (by simpa [render] using hc)
    exact isWordChar_of_isDigit hdigit
  | str s =>
    intro level read t _
    exact scanFrom_string read s t
  | @arr items _ ih =>
    intro level read t _
    cases items with
    | nil => exact (scanFrom_mark rfl rfl read _).trans (scanFrom_mark rfl rfl _ t)
    | cons v vs =>
      obtain ⟨hv, ih⟩ := List.forall_mem_cons.1 ih
      simp only [render, List.append_assoc, List.cons_append, List.nil_append]
      rw [scanFrom_mark (c := '[') rfl rfl, scanFrom_gap,
        hv _ _ _ (endsWord_renderItems l level vs t), scanFrom_renderItems _ _ _ ih]
      simp [tokens]
  | @obj members _ ih =>
    intro level read t _
    cases members with
    | nil => exact (scanFrom_mark rfl rfl read _).trans (scanFrom_mark rfl rfl _ t)
    | cons m ms =>
      obtain ⟨k, v⟩ := m
      obtain ⟨hv, ih⟩ := List.forall_mem_cons.1 ih
      simp only [render, List.append_assoc, List.cons_append, List.nil_append]
      rw [scanFrom_mark (c := '\x7b') rfl rfl, scanFrom_gap, scanFrom_string, scanFrom_colon,
        hv _ _ _ (endsWord_renderMembers l level ms t), scanFrom_renderMembers _ _ _ ih]
      simp [tokens]

/-! ### Reading tokens -/

/-- Whether the tokens of a value are read as the value. -/
def Reads (v : Json) : Prop :=
  ∀ stack, (tokens v).foldlM Reading.step? ⟨stack, .value⟩ = some ⟨stack, .after v⟩

/-- A first item is read like any other: no value begins with a closing bracket. -/
theorem foldlM_tokens_firstItem (v : Json) (items : List Json) (stack : List Frame)
    (ks : List Token) :
    (tokens v ++ ks).foldlM Reading.step? ⟨.arr items :: stack, .firstItem⟩ =
      (tokens v ++ ks).foldlM Reading.step? ⟨.arr items :: stack, .value⟩ := by
  cases v with
  | arr items => cases items <;> rfl
  | obj members => cases members <;> rfl
  | _ => rfl

theorem foldlM_itemTokens {vs : List Json} (h : ∀ v ∈ vs, Reads v) (v : Json) (done : List Json)
    (stack : List Frame) : (itemTokens vs).foldlM Reading.step? ⟨.arr done :: stack, .after v⟩ =
      some ⟨stack, .after (.arr (done.reverse ++ v :: vs))⟩ := by
  induction vs generalizing v done with
  | nil => simp [itemTokens, Reading.step?]
  | cons w vs ih =>
    obtain ⟨hw, h⟩ := List.forall_mem_cons.1 h
    have hcomma : Reading.step? ⟨.arr done :: stack, .after v⟩ .comma =
        some ⟨.arr (v :: done) :: stack, .value⟩ := rfl
    rw [itemTokens, List.foldlM_cons, hcomma, Option.bind_eq_bind, Option.bind_some,
      List.foldlM_append, hw, Option.bind_eq_bind, Option.bind_some, ih h]
    simp

/-- Members that have been read, as a frame holds them. -/
def named (members : List (Text × Json)) : List (Option Text × Json) :=
  members.map fun m => (some m.1, m.2)

theorem mapM_named {f : Option Text × Json → Option (Text × Json)}
    (hf : ∀ m : Text × Json, f (some m.1, m.2) = some m) (members : List (Text × Json)) :
    (named members).mapM f = some members := by
  induction members with
  | nil => rfl
  | cons m members ih =>
    rw [named, List.map_cons, List.mapM_cons, ← named, ih, hf]
    rfl

theorem ofMembers_named (members : List (Text × Json)) :
    ofMembers (named members) = obj members := by
  rw [ofMembers, mapM_named fun _ => rfl]

theorem foldlM_memberTokens {ms : List (Text × Json)} (h : ∀ m ∈ ms, Reads m.2) (k : Text)
    (v : Json) (done : List (Text × Json)) (stack : List Frame) :
    (memberTokens ms).foldlM Reading.step? ⟨.obj (named done) (some k) :: stack, .after v⟩ =
      some ⟨stack, .after (.obj (done.reverse ++ (k, v) :: ms))⟩ := by
  induction ms generalizing k v done with
  | nil =>
    have hclose : Reading.step? ⟨.obj (named done) (some k) :: stack, .after v⟩ .closeObj =
        some ⟨stack, .after (ofMembers (named ((k, v) :: done)).reverse)⟩ := rfl
    rw [memberTokens, List.foldlM_cons, hclose, named, ← List.map_reverse, ← named,
      ofMembers_named, List.reverse_cons]
    rfl
  | cons m ms ih =>
    obtain ⟨k', w⟩ := m
    obtain ⟨hw, h⟩ := List.forall_mem_cons.1 h
    have hcomma : Reading.step? ⟨.obj (named done) (some k) :: stack, .after v⟩ .comma =
        some ⟨stack, .name (named ((k, v) :: done))⟩ := rfl
    have hname : Reading.step? ⟨stack, .name (named ((k, v) :: done))⟩ (.string (some k')) =
        some ⟨stack, .colon (named ((k, v) :: done)) (some k')⟩ := rfl
    have hcolon : Reading.step? ⟨stack, .colon (named ((k, v) :: done)) (some k')⟩ .colon =
        some ⟨.obj (named ((k, v) :: done)) (some k') :: stack, .value⟩ := rfl
    have hw := hw (.obj (named ((k, v) :: done)) (some k') :: stack)
    simp only [memberTokens, List.foldlM_cons, List.foldlM_append, hcomma, hname, hcolon, hw,
      Option.bind_eq_bind, Option.bind_some, ih h]
    simp

/-- The tokens of a value are read as the value. -/
theorem reads_of_isPlain {v : Json} (hv : IsPlain v) : Reads v := by
  induction hv with
  | null => exact fun _ => rfl
  | bool b => exact fun _ => rfl
  | nat n => exact fun _ => rfl
  | str t => exact fun _ => rfl
  | @arr items _ ih =>
    intro stack
    cases items with
    | nil => rfl
    | cons v vs =>
      obtain ⟨hv, ih⟩ := List.forall_mem_cons.1 ih
      have hopen : Reading.step? ⟨stack, .value⟩ .openArr =
          some ⟨.arr [] :: stack, .firstItem⟩ := rfl
      rw [tokens, List.foldlM_cons, hopen, Option.bind_eq_bind, Option.bind_some,
        foldlM_tokens_firstItem, List.foldlM_append, hv, Option.bind_eq_bind, Option.bind_some,
        foldlM_itemTokens ih]
      rfl
  | @obj members _ ih =>
    intro stack
    cases members with
    | nil => rfl
    | cons m ms =>
      obtain ⟨k, v⟩ := m
      obtain ⟨hv, ih⟩ := List.forall_mem_cons.1 ih
      have hopen : Reading.step? ⟨stack, .value⟩ .openObj = some ⟨stack, .firstName⟩ := rfl
      have hname : Reading.step? ⟨stack, .firstName⟩ (.string (some k)) =
          some ⟨stack, .colon [] (some k)⟩ := rfl
      have hcolon : Reading.step? ⟨stack, .colon [] (some k)⟩ .colon =
          some ⟨.obj [] (some k) :: stack, .value⟩ := rfl
      have hv := hv (.obj [] (some k) :: stack)
      simp only [tokens, List.foldlM_cons, List.foldlM_append, hopen, hname, hcolon, hv,
        Option.bind_eq_bind, Option.bind_some]
      exact foldlM_memberTokens ih k v [] stack

/-- **What is printed is read back**, in either layout and with blanks behind it. -/
theorem parse?_write {v : Json} (hv : IsPlain v) (l : Layout) {blank : Text}
    (hblank : ∀ c ∈ blank, isSpace c = true) : parse? (v.write l ++ blank) = some v := by
  have hend : EndsWord blank := by
    intro c hc
    have := hblank c (List.mem_of_mem_head? hc)
    simp [isWordChar, this]
  have hscan : scan (v.write l ++ blank) = some (tokens v) := by
    have hspaces := scanFrom_spaces hblank (tokens v).reverse []
    rw [List.append_nil] at hspaces
    rw [scan, write, scans_of_isPlain l hv 0 [] blank hend, List.append_nil, hspaces, scanFrom,
      List.reverse_reverse]
  have hread : (tokens v).foldlM Reading.step? {} = some ⟨[], .after v⟩ := reads_of_isPlain hv []
  rw [parse?, hscan, Option.bind_eq_bind, Option.bind_some, ofTokens?, hread]
  rfl

end HunkEdits.Json
