import Keybench.Lib.Text

/-!
# Words of a shell command

The words of a simple command, as a POSIX shell reads them: blanks end a word, a text between
single quotes is taken as it is, and backslashes and double quotes take the meaning from the
characters that they quote.  A text that holds anything else, an operator, a comment or an
expansion, or that ends between quotes, is not a command of words only (`words`).

Each character that is not a single quote either gets into a word or costs one, and to get a
single quote into a word costs one more (`words_cost`).  So a command that is made of bare words
and of words put between single quotes is read as these words exactly when no word between
quotes holds a single quote (`words_command_iff`).
-/

namespace Shell

variable {α : Type*} [DecidableEq α]

/-- The characters that have a meaning. -/
structure Chars (α : Type*) where
  /-- The single quote. -/
  quote : α
  /-- The double quote. -/
  dquote : α
  /-- The backslash. -/
  escape : α
  /-- The end of a line. -/
  newline : α
  /-- The start of a comment, where a word may start. -/
  comment : α
  /-- The characters that end a word. -/
  blank : α → Bool
  /-- The characters that begin an operator. -/
  operator : α → Bool
  /-- The characters that begin an expansion, between double quotes as well. -/
  expansion : α → Bool
  /-- A quote does not escape. -/
  quote_ne_escape : quote ≠ escape

/-- Where the reader stands. -/
inductive Mode
  /-- Outside quotes. -/
  | plain
  /-- Between single quotes. -/
  | single
  /-- Between double quotes. -/
  | double
deriving DecidableEq

/-- The state of the reader. -/
structure State (α : Type*) where
  /-- Inside or outside quotes. -/
  mode : Mode
  /-- The character before was a backslash. -/
  escaped : Bool
  /-- The word that is being read. -/
  word : Option (List α)
  /-- The words before it. -/
  words : List (List α)

/-- The state at the start of a text. -/
def State.start : State α := ⟨.plain, false, none, []⟩

/-- The state with more characters in the word. -/
def State.add (st : State α) (cs : List α) : State α :=
  { st with escaped := false, word := some (st.word.getD [] ++ cs) }

/-- The state in another mode, which begins a word. -/
def State.enter (st : State α) (mode : Mode) : State α :=
  { st with mode := mode, word := some (st.word.getD []) }

/-- The state after the word. -/
def State.endWord (st : State α) : State α :=
  { st with word := none, words := st.words ++ st.word.toList }

variable (S : Chars α)

/-- Read a character after a backslash. -/
def stepEscaped (st : State α) (c : α) : State α :=
  if c = S.newline then { st with escaped := false }
  else
    match st.mode with
    | .double =>
      if c = S.dquote ∨ c = S.escape ∨ S.expansion c then st.add [c] else st.add [S.escape, c]
    | _ => st.add [c]

/-- Read a character outside quotes. -/
def stepPlain (st : State α) (c : α) : Option (State α) :=
  if c = S.quote then some (st.enter .single)
  else if c = S.dquote then some (st.enter .double)
  else if c = S.escape then some { st with escaped := true }
  else if S.blank c then some st.endWord
  else if c = S.newline ∨ S.operator c ∨ S.expansion c ∨ (c = S.comment ∧ st.word = none) then none
  else some (st.add [c])

/-- Read a character between single quotes. -/
def stepSingle (st : State α) (c : α) : Option (State α) :=
  if c = S.quote then some (st.enter .plain) else some (st.add [c])

/-- Read a character between double quotes. -/
def stepDouble (st : State α) (c : α) : Option (State α) :=
  if c = S.dquote then some (st.enter .plain)
  else if c = S.escape then some { st with escaped := true }
  else if S.expansion c then none
  else some (st.add [c])

/-- Read a character. -/
def step (st : State α) (c : α) : Option (State α) :=
  if st.escaped then some (stepEscaped S st c)
  else
    match st.mode with
    | .plain => stepPlain S st c
    | .single => stepSingle S st c
    | .double => stepDouble S st c

/-- The words at the end of the text, which must not be inside quotes. -/
def State.finish (st : State α) : Option (List (List α)) :=
  if st.mode = .plain ∧ st.escaped = false then some (st.words ++ st.word.toList) else none

/-- The words of a command, when it consists of words only. -/
def words (s : List α) : Option (List (List α)) := (s.foldlM (step S) State.start).bind State.finish

/-! ## What words cost -/

variable {S}

/-- The characters of a text that are not single quotes. -/
def unquotes (S : Chars α) (s : List α) : ℕ := s.countP (fun c => decide (c ≠ S.quote))

theorem unquotes_append (s t : List α) :
  unquotes S (s ++ t) = unquotes S s + unquotes S t
  := by
  apply List.countP_append

theorem unquotes_singleton (c : α) :
  unquotes S [c] = if c = S.quote then 0 else 1
  := by
  rw [unquotes, List.countP_singleton]
  split_ifs <;> simp_all

theorem unquotes_le (s : List α) :
  unquotes S s ≤ s.length
  := by
  apply List.countP_le_length

/-- The characters in the words. -/
def State.text (st : State α) : List α := st.words.flatten ++ st.word.getD []

omit [DecidableEq α] in
@[simp]
theorem State.text_add (st : State α) (cs : List α) :
  (st.add cs).text = st.text ++ cs
  := by
  simp [State.text, State.add]

omit [DecidableEq α] in
@[simp]
theorem State.text_enter (st : State α) (mode : Mode) :
  (st.enter mode).text = st.text
  := by
  simp [State.text, State.enter]

omit [DecidableEq α] in
@[simp]
theorem State.text_endWord (st : State α) :
  st.endWord.text = st.text
  := by
  cases h : st.word with
  | none => simp [State.text, State.endWord, h]
  | some w => simp [State.text, State.endWord, h]

/-- One for a single quote in the words, or the double quotes that let one in. -/
def State.opened (S : Chars α) (st : State α) : ℕ :=
  if S.quote ∈ st.text ∨ st.mode = .double then 1 else 0

/-- What the reader has paid for: the other characters in the words, an end of each word that is
complete, one for all single quotes in the words, and a backslash that is not used yet. -/
def State.cost (S : Chars α) (st : State α) : ℕ :=
  unquotes S st.text + st.words.length + st.opened S + if st.escaped then 1 else 0

/-- What one character pays for. -/
def pays (S : Chars α) (c : α) : ℕ := if c = S.quote then 0 else 1

theorem State.opened_le (st : State α) :
  st.opened S ≤ 1
  := by
  rw [State.opened]
  split_ifs
  · apply le_refl
  · apply Nat.zero_le

/-- Characters other than single quotes do not open the words. -/
theorem State.opened_add {st : State α} {cs : List α}
    (h : S.quote ∈ cs → st.opened S = 1) :
  (st.add cs).opened S = st.opened S
  := by
  by_cases hc : S.quote ∈ cs
  · have hst := h hc
    rw [hst, State.opened, if_pos]
    left
    rw [State.text_add]
    apply List.mem_append_right _ hc
  · have hmode : (st.add cs).mode = st.mode := rfl
    simp only [State.opened, State.text_add, List.mem_append, hc, or_false, hmode]

/-- Adding a character is paid for by the character. -/
theorem State.cost_add {st : State α} {c : α} (h : c = S.quote → st.opened S = 1) :
  (st.add [c]).cost S ≤ st.cost S + pays S c
  := by
  have hopened : (st.add [c]).opened S = st.opened S := by
    apply State.opened_add
    intro hc
    apply h (List.mem_singleton.mp hc).symm
  have hwords : (st.add [c]).words = st.words := rfl
  have hescaped : (st.add [c]).escaped = false := rfl
  rw [State.cost, State.cost, hopened, hwords, hescaped, State.text_add, unquotes_append,
    unquotes_singleton, pays]
  simp only [Bool.false_eq_true, if_false]
  omega

/-- A single quote after a backslash is paid for by the backslash. -/
theorem State.cost_add_quote {st : State α} (h : st.escaped = true) :
  (st.add [S.quote]).cost S ≤ st.cost S
  := by
  have hopened := (st.add [S.quote]).opened_le (S := S)
  have hwords : (st.add [S.quote]).words = st.words := rfl
  have hescaped : (st.add [S.quote]).escaped = false := rfl
  rw [State.cost, State.cost, hwords, hescaped, State.text_add, unquotes_append,
    unquotes_singleton, if_pos rfl, h]
  simp only [Bool.false_eq_true, if_false, if_true]
  omega

/-- Between double quotes the words are open. -/
theorem State.opened_double {st : State α} (h : st.mode = .double) :
  st.opened S = 1
  := by
  rw [State.opened, if_pos (Or.inr h)]

/-- A character after a backslash, with the backslash kept. -/
theorem State.cost_add_escape {st : State α} (h : st.escaped = true) (hmode : st.mode = .double)
    (c : α) :
  (st.add [S.escape, c]).cost S ≤ st.cost S + pays S c
  := by
  have hopened : (st.add [S.escape, c]).opened S = st.opened S := by
    apply State.opened_add
    intro _
    apply State.opened_double hmode
  have hwords : (st.add [S.escape, c]).words = st.words := rfl
  have hescaped : (st.add [S.escape, c]).escaped = false := rfl
  have hchars : unquotes S [S.escape, c] ≤ 1 + pays S c := by
    have happ : [S.escape, c] = [S.escape] ++ [c] := rfl
    have hle := unquotes_le (S := S) [S.escape]
    rw [happ, unquotes_append, unquotes_singleton c, pays]
    apply Nat.add_le_add_right hle
  rw [State.cost, State.cost, hopened, hwords, hescaped, State.text_add, unquotes_append, h]
  simp only [Bool.false_eq_true, if_false, if_true]
  omega

/-- Entering or leaving quotes is paid for by a double quote, and costs nothing at a single
one. -/
theorem State.cost_enter {st : State α} {mode : Mode} {n : ℕ}
    (h : mode = .double → 1 ≤ n ∨ st.mode = .double) :
  (st.enter mode).cost S ≤ st.cost S + n
  := by
  have hwords : (st.enter mode).words = st.words := rfl
  have hescaped : (st.enter mode).escaped = st.escaped := rfl
  have hopened : (st.enter mode).opened S ≤ st.opened S + n := by
    have hmode : (st.enter mode).mode = mode := rfl
    rw [State.opened, State.opened, State.text_enter, hmode]
    split_ifs with hnew hold
    · omega
    · rcases hnew with hquote | hdouble
      · exact absurd (Or.inl hquote) hold
      · rcases h hdouble with hn | hn
        · omega
        · exact absurd (Or.inr hn) hold
    · omega
    · omega
  rw [State.cost, State.cost, hwords, hescaped, State.text_enter]
  omega

/-- The end of a word is paid for by the blank. -/
theorem State.cost_endWord (st : State α) :
  st.endWord.cost S ≤ st.cost S + 1
  := by
  have hopened : st.endWord.opened S = st.opened S := by
    have hmode : st.endWord.mode = st.mode := rfl
    rw [State.opened, State.opened, State.text_endWord, hmode]
  have hescaped : st.endWord.escaped = st.escaped := rfl
  have hwords : st.endWord.words.length ≤ st.words.length + 1 := by
    show (st.words ++ st.word.toList).length ≤ st.words.length + 1
    rw [List.length_append]
    cases st.word <;> simp
  rw [State.cost, State.cost, hopened, hescaped, State.text_endWord]
  omega

/-- A backslash pays for itself. -/
theorem State.cost_escaped {st : State α} :
  State.cost S { st with escaped := true } ≤ st.cost S + 1
  := by
  have hopened : State.opened S { st with escaped := true } = st.opened S := rfl
  have htext : State.text { st with escaped := true } = st.text := rfl
  rw [State.cost, State.cost, hopened, htext]
  simp only [if_true]
  omega

theorem pays_of_ne {c : α} (h : c ≠ S.quote) :
  pays S c = 1
  := by
  rw [pays, if_neg h]

/-- A character other than a single quote pays for being added. -/
theorem State.cost_add_of_ne {st : State α} {c : α} (h : c ≠ S.quote) :
  (st.add [c]).cost S ≤ st.cost S + pays S c
  := by
  apply State.cost_add
  intro heq
  exact absurd heq h

/-- A character after a backslash. -/
theorem cost_stepEscaped {st : State α} (hesc : st.escaped = true) (c : α) :
  (stepEscaped S st c).cost S ≤ st.cost S + pays S c
  := by
  have hadd : (st.add [c]).cost S ≤ st.cost S + pays S c := by
    by_cases hc : c = S.quote
    · rw [hc]
      apply Nat.le_add_right_of_le (State.cost_add_quote hesc)
    · apply State.cost_add_of_ne hc
  rw [stepEscaped]
  split
  · -- the end of a line after a backslash is dropped with it
    have hopened : State.opened S { st with escaped := false } = st.opened S := rfl
    have htext : State.text { st with escaped := false } = st.text := rfl
    rw [State.cost, State.cost, hopened, htext]
    simp only [Bool.false_eq_true, if_false]
    omega
  · split
    · next hmode =>
      split
      · apply hadd
      · apply State.cost_add_escape hesc hmode
    · apply hadd

/-- A character outside quotes. -/
theorem cost_stepPlain {st st' : State α} {c : α} (h : stepPlain S st c = some st') :
  st'.cost S ≤ st.cost S + pays S c
  := by
  rw [stepPlain] at h
  split_ifs at h with hq hd he hb hs
  · obtain rfl := Option.some.inj h
    apply State.cost_enter
    intro hdouble
    cases hdouble
  · obtain rfl := Option.some.inj h
    apply State.cost_enter
    intro _
    left
    rw [pays_of_ne hq]
  · obtain rfl := Option.some.inj h
    rw [pays_of_ne hq]
    apply State.cost_escaped
  · obtain rfl := Option.some.inj h
    rw [pays_of_ne hq]
    apply State.cost_endWord
  · obtain rfl := Option.some.inj h
    apply State.cost_add_of_ne hq

/-- A character between single quotes. -/
theorem cost_stepSingle {st st' : State α} {c : α} (h : stepSingle S st c = some st') :
  st'.cost S ≤ st.cost S + pays S c
  := by
  rw [stepSingle] at h
  split_ifs at h with hq
  · obtain rfl := Option.some.inj h
    apply State.cost_enter
    intro hdouble
    cases hdouble
  · obtain rfl := Option.some.inj h
    apply State.cost_add_of_ne hq

/-- A character between double quotes. -/
theorem cost_stepDouble {st st' : State α} {c : α} (hmode : st.mode = .double)
    (h : stepDouble S st c = some st') :
  st'.cost S ≤ st.cost S + pays S c
  := by
  rw [stepDouble] at h
  split_ifs at h with hd he hx
  · obtain rfl := Option.some.inj h
    apply State.cost_enter
    intro hdouble
    cases hdouble
  · obtain rfl := Option.some.inj h
    have hc : c ≠ S.quote := by
      rw [he]
      apply S.quote_ne_escape.symm
    rw [pays_of_ne hc]
    apply State.cost_escaped
  · obtain rfl := Option.some.inj h
    apply State.cost_add
    intro _
    apply State.opened_double hmode

/-- Each character pays for what reading it costs. -/
theorem cost_step {st st' : State α} {c : α} (h : step S st c = some st') :
  st'.cost S ≤ st.cost S + pays S c
  := by
  rw [step] at h
  split_ifs at h with hesc
  · obtain rfl := Option.some.inj h
    apply cost_stepEscaped hesc
  · cases hmode : st.mode with
    | plain =>
      rw [hmode] at h
      apply cost_stepPlain h
    | single =>
      rw [hmode] at h
      apply cost_stepSingle h
    | double =>
      rw [hmode] at h
      apply cost_stepDouble hmode h

/-- A text pays for what reading it costs. -/
theorem cost_foldlM {s : List α} {st st' : State α} (h : s.foldlM (step S) st = some st') :
  st'.cost S ≤ st.cost S + unquotes S s
  := by
  induction s generalizing st with
  | nil =>
    obtain rfl := Option.some.inj h
    apply le_refl
  | cons c s ih =>
    rw [List.foldlM_cons] at h
    obtain ⟨mid, hstep, hrest⟩ := Option.bind_eq_some_iff.mp h
    have hc := cost_step hstep
    have hs := ih hrest
    have hpays : unquotes S (c :: s) = pays S c + unquotes S s := by
      have happ : c :: s = [c] ++ s := rfl
      rw [happ, unquotes_append, unquotes_singleton, pays]
    omega

/-- The words of a text with the characters between them, and one more when a single quote got
into a word, are at most the characters of the text that are not single quotes. -/
theorem words_cost {s : List α} {ws : List (List α)} (h : words S s = some ws) :
  unquotes S ws.flatten + (ws.length - 1) + (if S.quote ∈ ws.flatten then 1 else 0)
    ≤ unquotes S s
  := by
  obtain ⟨st, hrun, hfinish⟩ := Option.bind_eq_some_iff.mp h
  have hcost := cost_foldlM hrun
  have hstart : (State.start : State α).cost S = 0 := rfl
  rw [State.finish] at hfinish
  split_ifs at hfinish with hdone
  obtain rfl := Option.some.inj hfinish
  have htext : (st.words ++ st.word.toList).flatten = st.text := by
    rw [State.text]
    cases st.word <;> simp
  have hlen : (st.words ++ st.word.toList).length - 1 ≤ st.words.length := by
    rw [List.length_append]
    cases st.word <;> simp
  have hopened : (if S.quote ∈ st.text then 1 else 0) ≤ st.opened S := by
    rw [State.opened]
    split_ifs <;> simp_all
  rw [htext]
  rw [hstart, State.cost] at hcost
  omega

/-! ## Commands made of words -/

/-- A word of a command that is written bare or between single quotes. -/
inductive Piece (α : Type*) where
  /-- A word that is written as it is. -/
  | bare (w : List α)
  /-- A word that is put between single quotes. -/
  | quoted (w : List α)

/-- The word that a piece stands for. -/
def Piece.value : Piece α → List α
  | .bare w => w
  | .quoted w => w

/-- What is written for a piece. -/
def Piece.text (S : Chars α) : Piece α → List α
  | .bare w => w
  | .quoted w => S.quote :: (w ++ [S.quote])

/-- The pieces with a separator between them. -/
def command (S : Chars α) (sep : α) (ps : List (Piece α)) : List α :=
  [sep].intercalate (ps.map (Piece.text S))

/-- A character without a meaning. -/
def Ordinary (S : Chars α) (c : α) : Prop :=
  c ≠ S.quote ∧ c ≠ S.dquote ∧ c ≠ S.escape ∧ S.blank c = false ∧ c ≠ S.newline ∧
    S.operator c = false ∧ S.expansion c = false ∧ c ≠ S.comment

instance decidableOrdinary (S : Chars α) : DecidablePred (Ordinary S) := fun _ =>
  inferInstanceAs (Decidable (_ ∧ _))

/-- A bare word is not empty and made of characters without a meaning. -/
def Piece.Sound (S : Chars α) : Piece α → Prop
  | .bare w => w ≠ [] ∧ ∀ c ∈ w, Ordinary S c
  | .quoted _ => True

/-- A blank that separates words. -/
def Separates (S : Chars α) (sep : α) : Prop :=
  S.blank sep = true ∧ sep ≠ S.quote ∧ sep ≠ S.dquote ∧ sep ≠ S.escape

omit [DecidableEq α] in
theorem State.add_add (st : State α) (cs ds : List α) :
  (st.add cs).add ds = st.add (cs ++ ds)
  := by
  simp [State.add]

/-- A word of characters without a meaning is added. -/
theorem foldlM_ordinary {st : State α} (hmode : st.mode = .plain) (hesc : st.escaped = false)
    {w : List α} (hne : w ≠ []) (hw : ∀ c ∈ w, Ordinary S c) :
  w.foldlM (step S) st = some (st.add w)
  := by
  induction w generalizing st with
  | nil => cases hne rfl
  | cons c w ih =>
    obtain ⟨hq, hd, he, hb, hn, ho, hx, hcomment⟩ := hw c List.mem_cons_self
    have hstep : step S st c = some (st.add [c]) := by
      simp [step, hesc, hmode, stepPlain, hq, hd, he, hb, hn, ho, hx, hcomment]
    rw [List.foldlM_cons, hstep]
    by_cases hnil : w = []
    · rw [hnil]
      rfl
    · have hrec : w.foldlM (step S) (st.add [c]) = some ((st.add [c]).add w) :=
        ih hmode rfl hnil (fun d hd => hw d (List.mem_cons_of_mem _ hd))
      rw [State.add_add, List.singleton_append] at hrec
      exact hrec

/-- A text without a single quote is added between single quotes. -/
theorem foldlM_single {w : List α} (hw : S.quote ∉ w) (v : List α) (ws : List (List α)) :
  w.foldlM (step S) ⟨.single, false, some v, ws⟩ = some ⟨.single, false, some (v ++ w), ws⟩
  := by
  induction w generalizing v with
  | nil =>
    rw [List.append_nil]
    rfl
  | cons c w ih =>
    have hc : c ≠ S.quote := by
      rintro rfl
      apply hw List.mem_cons_self
    have hstep : step S ⟨.single, false, some v, ws⟩ c
        = some ⟨.single, false, some (v ++ [c]), ws⟩ := by
      simp [step, stepSingle, hc, State.add]
    have hrec := ih (fun hmem => hw (List.mem_cons_of_mem _ hmem)) (v ++ [c])
    rw [List.append_assoc, List.singleton_append] at hrec
    rw [List.foldlM_cons, hstep]
    exact hrec

/-- Whether a piece may hold single quotes without changing the command. -/
def Piece.QuoteFree (S : Chars α) : Piece α → Prop
  | .bare _ => True
  | .quoted w => S.quote ∉ w

/-- A piece is read as its word. -/
theorem foldlM_piece {p : Piece α} (hsound : p.Sound S) (hfree : p.QuoteFree S)
    (ws : List (List α)) :
  (p.text S).foldlM (step S) ⟨.plain, false, none, ws⟩
    = some ⟨.plain, false, some p.value, ws⟩
  := by
  cases p with
  | bare w =>
    have hrest : w.foldlM (step S) ⟨.plain, false, none, ws⟩
        = some (State.add ⟨.plain, false, none, ws⟩ w) :=
      foldlM_ordinary rfl rfl hsound.1 hsound.2
    exact hrest
  | quoted w =>
    have hopen : step S ⟨.plain, false, none, ws⟩ S.quote
        = some ⟨.single, false, some [], ws⟩ := by
      simp [step, stepPlain, State.enter]
    have hclose : step S ⟨.single, false, some w, ws⟩ S.quote
        = some ⟨.plain, false, some w, ws⟩ := by
      simp [step, stepSingle, State.enter]
    have hmiddle := foldlM_single hfree [] ws
    rw [List.nil_append] at hmiddle
    rw [Piece.text, List.foldlM_cons, hopen]
    show (w ++ [S.quote]).foldlM (step S) ⟨.single, false, some [], ws⟩ = _
    rw [List.foldlM_append, hmiddle]
    show [S.quote].foldlM (step S) ⟨.single, false, some w, ws⟩ = _
    rw [List.foldlM_cons, hclose]
    rfl

/-- A separator ends the word. -/
theorem step_separator {sep : α} (hsep : Separates S sep) (w : List α) (ws : List (List α)) :
  step S ⟨.plain, false, some w, ws⟩ sep = some ⟨.plain, false, none, ws ++ [w]⟩
  := by
  obtain ⟨hblank, hq, hd, he⟩ := hsep
  simp [step, stepPlain, hq, hd, he, hblank, State.endWord]

/-- Pieces with separators between them are read as their words. -/
theorem foldlM_command {sep : α} (hsep : Separates S sep) {ps : List (Piece α)} (hne : ps ≠ [])
    (hsound : ∀ p ∈ ps, p.Sound S) (hfree : ∀ p ∈ ps, p.QuoteFree S) (ws : List (List α)) :
  ((command S sep ps).foldlM (step S) ⟨.plain, false, none, ws⟩).bind State.finish
    = some (ws ++ ps.map Piece.value)
  := by
  induction ps generalizing ws with
  | nil => cases hne rfl
  | cons p ps ih =>
    have hp := foldlM_piece (hsound p List.mem_cons_self) (hfree p List.mem_cons_self) ws
    by_cases hnil : ps = []
    · rw [hnil, command, List.map_singleton, List.intercalate_singleton, hp]
      rfl
    · have hrec := ih hnil (fun q hq => hsound q (List.mem_cons_of_mem _ hq))
        (fun q hq => hfree q (List.mem_cons_of_mem _ hq)) (ws ++ [p.value])
      rw [List.append_assoc, List.singleton_append] at hrec
      have hmap : ps.map (Piece.text S) ≠ [] := by simpa using hnil
      rw [command, List.map_cons, List.intercalate_cons_of_ne_nil hmap, List.append_assoc,
        List.foldlM_append, hp]
      show (([sep] ++ command S sep ps).foldlM (step S) ⟨.plain, false, some p.value, ws⟩).bind
        State.finish = _
      rw [List.singleton_append, List.foldlM_cons, step_separator hsep]
      exact hrec

/-- The characters of a command that are not single quotes. -/
theorem unquotes_command {sep : α} (hsep : Separates S sep) (ps : List (Piece α)) :
  unquotes S (command S sep ps)
    = unquotes S (ps.map Piece.value).flatten + (ps.length - 1)
  := by
  induction ps with
  | nil => rfl
  | cons p ps ih =>
    have htext : unquotes S (p.text S) = unquotes S p.value := by
      cases p with
      | bare w => rfl
      | quoted w =>
        have happ : S.quote :: (w ++ [S.quote]) = [S.quote] ++ (w ++ [S.quote]) := rfl
        rw [Piece.text, happ, unquotes_append, unquotes_append, unquotes_singleton, if_pos rfl,
          Nat.zero_add, Nat.add_zero, Piece.value]
    rw [List.map_cons, List.flatten_cons, unquotes_append, List.length_cons,
      Nat.add_sub_cancel]
    by_cases hnil : ps = []
    · rw [hnil, command, List.map_singleton, List.intercalate_singleton, htext]
      rfl
    · have hmap : ps.map (Piece.text S) ≠ [] := by simpa using hnil
      have hpos := List.length_pos_of_ne_nil hnil
      have hrest : [sep].intercalate (ps.map (Piece.text S)) = command S sep ps := rfl
      rw [command, List.map_cons, List.intercalate_cons_of_ne_nil hmap, hrest, unquotes_append,
        unquotes_append, unquotes_singleton, if_neg hsep.2.1, htext, ih]
      omega

/-- A command made of bare words and of words between single quotes is read as these words
exactly when no word between quotes holds a single quote. -/
theorem words_command_iff {sep : α} (hsep : Separates S sep) {ps : List (Piece α)}
    (hsound : ∀ p ∈ ps, p.Sound S) :
  words S (command S sep ps) = some (ps.map Piece.value) ↔ ∀ p ∈ ps, p.QuoteFree S
  := by
  constructor
  · intro h p hp
    have hcost := words_cost h
    rw [unquotes_command hsep, List.length_map] at hcost
    cases p with
    | bare w => trivial
    | quoted w =>
      intro hquote
      have hmem : S.quote ∈ (ps.map Piece.value).flatten :=
        List.mem_flatten.mpr ⟨w, List.mem_map.mpr ⟨.quoted w, hp, rfl⟩, hquote⟩
      rw [if_pos hmem] at hcost
      omega
  · intro hfree
    by_cases hnil : ps = []
    · rw [hnil]
      rfl
    · have h := foldlM_command hsep hnil hsound hfree []
      rw [List.nil_append] at h
      exact h

end Shell
