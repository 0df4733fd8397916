import Keybench.Lib.Access
import Keybench.Lib.Interleave
import Mathlib.Data.Finset.Insert

/-!
# Objects guarded by a readers and writer lock

Threads call the operations of an object.  A call waits for the lock, accesses the object's
state while it holds the lock, an access at a time, and gives the lock back with its answer.  The
calls of several threads interleave in any way the lock allows.

The answers are those of the operations run one after the other, in the order in which the calls
gave the lock back (`Reached`, `reached_of_run`).  That order extends each thread's own
order and the order of calls that do not overlap.  While no run of the operations fails, no
access does, and some thread can always go on (`Reached.access_isSome`, `Reached.progress`).  An
observation that a writer changes once is at each moment the one before or after its call
(`exists_observed`).
-/

namespace RwLock

open Access

/-- How a call holds the lock. -/
inductive Mode where
  | shared
  | exclusive
deriving DecidableEq

/-! ## The lock -/

/-- The lock is held by some readers or by one writer. -/
inductive Lock (ι : Type) where
  | readers (ts : Finset ι)
  | writer (t : ι)

namespace Lock

variable {ι : Type} [DecidableEq ι]

/-- A thread takes the lock. -/
def acquire (t : ι) : Mode → Lock ι → Option (Lock ι)
  | .shared, readers ts => some (readers (insert t ts))
  | .exclusive, readers ts => if ts = ∅ then some (writer t) else none
  | _, writer _ => none

/-- A thread gives the lock back. -/
def release (t : ι) : Lock ι → Option (Lock ι)
  | readers ts => if t ∈ ts then some (readers (ts.erase t)) else none
  | writer u => if t = u then some (readers ∅) else none

/-- A thread holds the lock. -/
def Holds (t : ι) : Mode → Lock ι → Prop
  | .shared, readers ts => t ∈ ts
  | .exclusive, writer u => t = u
  | .shared, writer _ => False
  | .exclusive, readers _ => False

omit [DecidableEq ι] in
/-- A writer holds the lock alone. -/
theorem Holds.alone {l : Lock ι} {t u : ι} {m : Mode} (ht : l.Holds t .exclusive)
    (hu : l.Holds u m) :
  u = t ∧ m = .exclusive
  := by
  cases l with
  | readers ts => cases ht
  | writer w =>
    obtain rfl : t = w := ht
    cases m with
    | shared => cases hu
    | exclusive =>
      obtain rfl : u = t := hu
      exact ⟨rfl, rfl⟩

/-- Who takes the lock holds it, with those who held it before, none of them a writer. -/
theorem holds_acquire {l l' : Lock ι} {t : ι} {m : Mode} (h : l.acquire t m = some l') :
  (∀ u, ¬ l.Holds u .exclusive) ∧
    ∀ u n, l'.Holds u n ↔ u = t ∧ n = m ∨ l.Holds u n
  := by
  cases l with
  | writer w => cases m <;> cases h
  | readers ts =>
    constructor
    · rintro u ⟨⟩
    · cases m with
      | shared =>
        obtain rfl := Option.some.inj h
        intro u n
        cases n <;> simp [Holds]
      | exclusive =>
        rw [acquire] at h
        split_ifs at h with hempty
        obtain rfl := Option.some.inj h
        subst hempty
        intro u n
        cases n <;> simp [Holds]

/-- Who gives the lock back held it, and the others still do. -/
theorem holds_release {l l' : Lock ι} {t : ι} (h : l.release t = some l') :
  (∃ m, l.Holds t m) ∧ ∀ u n, l'.Holds u n ↔ u ≠ t ∧ l.Holds u n
  := by
  cases l with
  | readers ts =>
    rw [release] at h
    split_ifs at h with hmem
    obtain rfl := Option.some.inj h
    constructor
    · use .shared
      apply hmem
    · intro u n
      cases n <;> simp [Holds]
  | writer w =>
    rw [release] at h
    split_ifs at h with heq
    subst heq
    obtain rfl := Option.some.inj h
    constructor
    · use .exclusive
      rfl
    · intro u n
      cases n <;> simp [Holds]

/-- Who holds the lock can give it back. -/
theorem release_of_holds {l : Lock ι} {t : ι} {m : Mode} (h : l.Holds t m) :
  (l.release t).isSome
  := by
  cases l with
  | readers ts =>
    cases m with
    | shared =>
      have hmem : t ∈ ts := h
      rw [release, if_pos hmem]
      rfl
    | exclusive => cases h
  | writer w =>
    cases m with
    | shared => cases h
    | exclusive =>
      have heq : t = w := h
      rw [release, if_pos heq]
      rfl

/-- Someone holds the lock, or anyone can take it. -/
theorem held_or_free (l : Lock ι) :
  (∃ t m, l.Holds t m) ∨ ∀ t m, (l.acquire t m).isSome
  := by
  cases l with
  | writer t =>
    left
    use t, .exclusive
    rfl
  | readers ts =>
    rcases ts.eq_empty_or_nonempty with rfl | ⟨t, ht⟩
    · right
      intro t m
      cases m <;> rfl
    · left
      use t, .shared
      apply ht

end Lock

/-! ## Objects -/

/-- An object: how each operation holds the lock, and what it does while it holds it.  Under a
shared lock an operation only reads. -/
structure Object (S Op A : Type) where
  mode : Op → Mode
  body : Op → Prog S A
  readOnly : ∀ op, mode op = .shared → (body op).ReadOnly

section Objects

variable {S Op A ι : Type} [DecidableEq ι] (obj : Object S Op A)

/-- The operations one after the other: their answers and the state they leave. -/
def Object.serial : S → List Op → Option (List A × S)
  | s, [] => some ([], s)
  | s, op :: ops => do
    let (a, s) ← (obj.body op).run s
    let (as, s) ← serial s ops
    some (a :: as, s)

/-- One operation more. -/
theorem Object.serial_concat {s t u : S} {ops : List Op} {as : List A} {op : Op} {a : A}
    (h : obj.serial s ops = some (as, t)) (hop : (obj.body op).run t = some (a, u)) :
  obj.serial s (ops ++ [op]) = some (as ++ [a], u)
  := by
  induction ops generalizing s as with
  | nil =>
    obtain ⟨rfl, rfl⟩ := Prod.mk.inj (Option.some.inj h)
    simp [serial, hop]
  | cons op' ops ih =>
    simp only [serial, Option.bind_eq_bind, Option.bind_eq_some_iff] at h
    obtain ⟨⟨b, v⟩, hb, ⟨bs, w⟩, hbs, heq⟩ := h
    obtain ⟨rfl, rfl⟩ := Prod.mk.inj (Option.some.inj heq)
    simp [serial, hb, ih hbs]

/-- The last operation of a sequence that runs through. -/
theorem Object.run_of_serial {s t : S} {ops : List Op} {as : List A} {op : Op}
    (h : obj.serial s ops = some (as, t)) (hsome : (obj.serial s (ops ++ [op])).isSome) :
  ((obj.body op).run t).isSome
  := by
  induction ops generalizing s as with
  | nil =>
    obtain ⟨rfl, rfl⟩ := Prod.mk.inj (Option.some.inj h)
    obtain ⟨x, hx⟩ := Option.isSome_iff_exists.mp hsome
    obtain ⟨y, hy, -⟩ := Option.bind_eq_some_iff.mp hx
    rw [hy]
    rfl
  | cons op' ops ih =>
    simp only [serial, Option.bind_eq_bind, Option.bind_eq_some_iff] at h
    obtain ⟨⟨b, v⟩, hb, ⟨bs, w⟩, hbs, heq⟩ := h
    obtain ⟨rfl, rfl⟩ := Prod.mk.inj (Option.some.inj heq)
    obtain ⟨x, hx⟩ := Option.isSome_iff_exists.mp hsome
    simp only [List.cons_append, serial, hb, Option.bind_eq_bind, Option.bind_some] at hx
    obtain ⟨y, hy, -⟩ := Option.bind_eq_some_iff.mp hx
    apply ih hbs
    rw [hy]
    rfl

/-! ## Threads -/

/-- Where a thread is. -/
inductive Phase (S Op A : Type) : Type 1 where
  /-- In no call. -/
  | idle
  /-- In a call that waits for the lock. -/
  | waiting (op : Op)
  /-- In a call that holds the lock, with what is left of it to do. -/
  | inside (op : Op) (p : Prog S A)

/-- The operation a thread is in a call of. -/
def Phase.pending : Phase S Op A → List Op
  | idle => []
  | waiting op => [op]
  | inside op _ => [op]

/-- What a thread does next. -/
inductive Action (Op : Type) where
  /-- It calls an operation. -/
  | call (op : Op)
  /-- It takes the lock. -/
  | enter
  /-- It accesses the object. -/
  | access
  /-- It gives the lock back, with an answer. -/
  | leave

/-- The operation an action calls. -/
def Action.called : Action Op → Option Op
  | call op => some op
  | enter => none
  | access => none
  | leave => none

/-- The object, its lock, the threads, and the calls answered so far, in the order in which they
gave the lock back. -/
structure Config (S Op A ι : Type) where
  state : S
  lock : Lock ι
  phase : ι → Phase S Op A
  log : List (ι × (Op × A))

/-- An object in a state, and no call yet. -/
def start (s : S) : Config S Op A ι where
  state := s
  lock := .readers ∅
  phase := fun _ => .idle
  log := []

namespace Config

variable (c : Config S Op A ι)

/-- The places of the threads once a thread is at another. -/
def move (t : ι) (φ : Phase S Op A) : ι → Phase S Op A := Function.update c.phase t φ

@[simp]
theorem move_self (t : ι) (φ : Phase S Op A) :
  c.move t φ t = φ
  := Function.update_self ..

theorem move_of_ne {t u : ι} (h : u ≠ t) (φ : Phase S Op A) :
  c.move t φ u = c.phase u
  := Function.update_of_ne h ..

/-- Who is inside a call after a thread has moved. -/
theorem move_inside {t u : ι} {φ : Phase S Op A} {op : Op} {p : Prog S A}
    (h : c.move t φ u = .inside op p) :
  (u = t ∧ φ = .inside op p) ∨ (u ≠ t ∧ c.phase u = .inside op p)
  := by
  rcases eq_or_ne u t with rfl | hne
  · left
    rw [move_self] at h
    exact ⟨rfl, h⟩
  · right
    rw [c.move_of_ne hne] at h
    exact ⟨hne, h⟩

/-- The operations answered so far. -/
def ops : List Op := c.log.map fun x => x.2.1

/-- Their answers. -/
def answers : List A := c.log.map fun x => x.2.2

end Config

/-- A thread takes an action. -/
def step (c : Config S Op A ι) : ι × Action Op → Option (Config S Op A ι)
  | (t, .call op) =>
    match c.phase t with
    | .idle => some { c with phase := c.move t (.waiting op) }
    | _ => none
  | (t, .enter) =>
    match c.phase t with
    | .waiting op => (c.lock.acquire t (obj.mode op)).map fun l =>
        { c with lock := l, phase := c.move t (.inside op (obj.body op)) }
    | _ => none
  | (t, .access) =>
    match c.phase t with
    | .inside op p => (p.next c.state).map fun x =>
        { c with state := x.2, phase := c.move t (.inside op x.1) }
    | _ => none
  | (t, .leave) =>
    match c.phase t with
    | .inside op (.done a) => (c.lock.release t).map fun l =>
        { c with lock := l, phase := c.move t .idle, log := c.log ++ [(t, (op, a))] }
    | _ => none

/-- What an action does. -/
theorem step_cases {c c' : Config S Op A ι} {t : ι} {x : Action Op}
    (h : step obj c (t, x) = some c') :
  (∃ op, x = .call op ∧ c.phase t = .idle ∧ c' = { c with phase := c.move t (.waiting op) }) ∨
    (∃ op l, x = .enter ∧ c.phase t = .waiting op ∧ c.lock.acquire t (obj.mode op) = some l ∧
      c' = { c with lock := l, phase := c.move t (.inside op (obj.body op)) }) ∨
    (∃ op p q s, x = .access ∧ c.phase t = .inside op p ∧ p.next c.state = some (q, s) ∧
      c' = { c with state := s, phase := c.move t (.inside op q) }) ∨
    (∃ op a l, x = .leave ∧ c.phase t = .inside op (.done a) ∧ c.lock.release t = some l ∧
      c' = { c with lock := l, phase := c.move t .idle, log := c.log ++ [(t, (op, a))] })
  := by
  cases x with
  | call op =>
    left
    simp only [step] at h
    split at h
    · rename_i hphase
      obtain rfl := Option.some.inj h
      use op
    · cases h
  | enter =>
    right; left
    simp only [step] at h
    split at h
    · rename_i op hphase
      obtain ⟨l, hl, rfl⟩ := Option.map_eq_some_iff.mp h
      use op, l
    · cases h
  | access =>
    right; right; left
    simp only [step] at h
    split at h
    · rename_i op p hphase
      obtain ⟨⟨q, s⟩, hnext, rfl⟩ := Option.map_eq_some_iff.mp h
      use op, p, q, s
    · cases h
  | leave =>
    right; right; right
    simp only [step] at h
    split at h
    · rename_i op a hphase
      obtain ⟨l, hl, rfl⟩ := Option.map_eq_some_iff.mp h
      use op, a, l
    · cases h

/-! ## What every interleaving keeps -/

variable {obj}

/-- A thread holds the lock in a call. -/
def Phase.Holds (obj : Object S Op A) (m : Mode) : Phase S Op A → Prop
  | .inside op _ => obj.mode op = m
  | .idle => False
  | .waiting _ => False

/-- The invariant: `s` is the state the answered operations leave one after the other.  The lock
is held by the threads that are inside a call; what is left of such a call leads from the
object's state to where the whole operation leads from `s`; and while no writer is inside, the
object is in that state. -/
structure Reached (obj : Object S Op A) (s₀ : S) (c : Config S Op A ι) (s : S) : Prop where
  serial : obj.serial s₀ c.ops = some (c.answers, s)
  holds : ∀ t m, c.lock.Holds t m ↔ (c.phase t).Holds obj m
  resume : ∀ t op p, c.phase t = .inside op p → p.run c.state = (obj.body op).run s
  reader : ∀ t op p, c.phase t = .inside op p → obj.mode op = .shared → p.ReadOnly
  quiet : (∀ t, ¬ c.lock.Holds t .exclusive) → c.state = s

omit [DecidableEq ι] in
/-- An object nobody has called yet. -/
theorem Reached.start (s₀ : S) :
  Reached obj s₀ (RwLock.start s₀ : Config S Op A ι) s₀
  := by
  constructor
  case serial => rfl
  case holds =>
    intro t m
    cases m <;> simp [RwLock.start, Lock.Holds, Phase.Holds]
  case resume =>
    intro t op p h
    cases h
  case reader =>
    intro t op p h
    cases h
  case quiet => exact fun _ => rfl

namespace Reached

variable {s₀ s : S} {c : Config S Op A ι} {t : ι}

omit [DecidableEq ι] in
/-- A thread inside a call holds the lock as the operation wants it. -/
theorem holds_inside (h : Reached obj s₀ c s) {op : Op} {p : Prog S A}
    (hphase : c.phase t = .inside op p) :
  c.lock.Holds t (obj.mode op)
  := by
  rw [h.holds, hphase]
  rfl

omit [DecidableEq ι] in
/-- While no thread is in a call, the object is in the state the answered operations leave. -/
theorem state_of_idle (h : Reached obj s₀ c s) (hidle : ∀ t, c.phase t = .idle) :
  c.state = s
  := by
  apply h.quiet
  intro t ht
  rw [h.holds, hidle t] at ht
  apply ht

/-- A call is made. -/
theorem call (h : Reached obj s₀ c s) (hphase : c.phase t = .idle) (op : Op) :
  Reached obj s₀ { c with phase := c.move t (.waiting op) } s
  := by
  constructor
  case serial => apply h.serial
  case holds =>
    intro u m
    rcases eq_or_ne u t with rfl | hne
    · simp only [Config.move_self]
      rw [h.holds, hphase]
      rfl
    · simp only [c.move_of_ne hne]
      apply h.holds
  case resume =>
    intro u op' p hu
    rcases c.move_inside hu with ⟨-, ⟨⟩⟩ | ⟨-, hold⟩
    apply h.resume u op' p hold
  case reader =>
    intro u op' p hu
    rcases c.move_inside hu with ⟨-, ⟨⟩⟩ | ⟨-, hold⟩
    apply h.reader u op' p hold
  case quiet => apply h.quiet

/-- A call takes the lock. -/
theorem enter (h : Reached obj s₀ c s) {op : Op} {l : Lock ι} (hphase : c.phase t = .waiting op)
    (hl : c.lock.acquire t (obj.mode op) = some l) :
  Reached obj s₀ { c with lock := l, phase := c.move t (.inside op (obj.body op)) } s
  := by
  obtain ⟨hquiet, hholds⟩ := Lock.holds_acquire hl
  constructor
  case serial => apply h.serial
  case holds =>
    intro u m
    rw [hholds]
    rcases eq_or_ne u t with rfl | hne
    · have hnot : ¬ c.lock.Holds u m := by
        rw [h.holds, hphase]
        rintro ⟨⟩
      simp only [Config.move_self, Phase.Holds, true_and, hnot, or_false, eq_comm]
    · simp only [c.move_of_ne hne, hne, false_and, false_or]
      apply h.holds
  case resume =>
    intro u op' p hu
    rcases c.move_inside hu with ⟨-, heq⟩ | ⟨-, hold⟩
    · obtain ⟨rfl, rfl⟩ := Phase.inside.inj heq
      rw [h.quiet hquiet]
    · apply h.resume u op' p hold
  case reader =>
    intro u op' p hu hmode
    rcases c.move_inside hu with ⟨-, heq⟩ | ⟨-, hold⟩
    · obtain ⟨rfl, rfl⟩ := Phase.inside.inj heq
      apply obj.readOnly op hmode
    · apply h.reader u op' p hold hmode
  case quiet =>
    intro _
    apply h.quiet hquiet

/-- A call accesses the object. -/
theorem access (h : Reached obj s₀ c s) {op : Op} {p q : Prog S A} {s' : S}
    (hphase : c.phase t = .inside op p) (hnext : p.next c.state = some (q, s')) :
  Reached obj s₀ { c with state := s', phase := c.move t (.inside op q) } s
  := by
  have hheld := h.holds_inside hphase
  -- A reader leaves the state as it is, and beside a writer nobody is inside.
  have hstate : obj.mode op = .shared → s' = c.state ∧ q.ReadOnly :=
    fun hmode => (h.reader t op p hphase hmode).next hnext
  have halone : obj.mode op = .exclusive → ∀ u m, c.lock.Holds u m → u = t := by
    intro hmode u m hu
    rw [hmode] at hheld
    apply (hheld.alone hu).1
  have hmode : obj.mode op = .shared ∨ obj.mode op = .exclusive := by
    cases obj.mode op with
    | shared => exact Or.inl rfl
    | exclusive => exact Or.inr rfl
  constructor
  case serial => apply h.serial
  case holds =>
    intro u m
    rcases eq_or_ne u t with rfl | hne
    · simp only [Config.move_self]
      rw [h.holds, hphase]
      rfl
    · simp only [c.move_of_ne hne]
      apply h.holds
  case resume =>
    intro u op' p' hu
    rcases c.move_inside hu with ⟨-, heq⟩ | ⟨hne, hold⟩
    · obtain ⟨rfl, rfl⟩ := Phase.inside.inj heq
      rw [← h.resume t op p hphase, Prog.run_next hnext]
    · rcases hmode with hshared | hexclusive
      · rw [(hstate hshared).1]
        apply h.resume u op' p' hold
      · apply absurd (halone hexclusive u _ (h.holds_inside hold)) hne
  case reader =>
    intro u op' p' hu hshared
    rcases c.move_inside hu with ⟨-, heq⟩ | ⟨-, hold⟩
    · obtain ⟨rfl, rfl⟩ := Phase.inside.inj heq
      apply (hstate hshared).2
    · apply h.reader u op' p' hold hshared
  case quiet =>
    intro hquiet
    rcases hmode with hshared | hexclusive
    · rw [(hstate hshared).1]
      apply h.quiet hquiet
    · rw [hexclusive] at hheld
      apply absurd hheld (hquiet t)

/-- A call gives the lock back with its answer. -/
theorem leave (h : Reached obj s₀ c s) {op : Op} {a : A} {l : Lock ι}
    (hphase : c.phase t = .inside op (.done a)) (hl : c.lock.release t = some l) :
  Reached obj s₀ { c with lock := l, phase := c.move t .idle, log := c.log ++ [(t, (op, a))] }
    c.state
  := by
  obtain ⟨-, hholds⟩ := Lock.holds_release hl
  have hheld := h.holds_inside hphase
  have hrun : (obj.body op).run s = some (a, c.state) := (h.resume t op _ hphase).symm
  have hother : ∀ u op' p, c.move t .idle u = .inside op' p →
      u ≠ t ∧ c.phase u = .inside op' p := by
    intro u op' p hu
    rcases c.move_inside hu with ⟨-, ⟨⟩⟩ | hold
    apply hold
  -- Another thread inside is a reader beside readers, so the state is still `s`.
  have hsame : ∀ u op' p, u ≠ t → c.phase u = .inside op' p → c.state = s := by
    intro u op' p hne hu
    apply h.quiet
    intro w hw
    obtain ⟨rfl, -⟩ := hw.alone hheld
    apply hne (hw.alone (h.holds_inside hu)).1
  constructor
  case serial =>
    have hops : ∀ (lock : Lock ι) (phase : ι → Phase S Op A),
        ({ c with lock := lock, phase := phase, log := c.log ++ [(t, (op, a))] } :
          Config S Op A ι).ops = c.ops ++ [op] := by
      intro lock phase
      simp [Config.ops]
    have hanswers : ∀ (lock : Lock ι) (phase : ι → Phase S Op A),
        ({ c with lock := lock, phase := phase, log := c.log ++ [(t, (op, a))] } :
          Config S Op A ι).answers = c.answers ++ [a] := by
      intro lock phase
      simp [Config.answers]
    rw [hops, hanswers]
    apply obj.serial_concat h.serial hrun
  case holds =>
    intro u m
    rw [hholds]
    rcases eq_or_ne u t with rfl | hne
    · simp [Phase.Holds]
    · simp only [c.move_of_ne hne, ne_eq, hne, not_false_eq_true, true_and]
      apply h.holds
  case resume =>
    intro u op' p hu
    obtain ⟨hne, hold⟩ := hother u op' p hu
    rw [h.resume u op' p hold, hsame u op' p hne hold]
  case reader =>
    intro u op' p hu
    apply h.reader u op' p (hother u op' p hu).2
  case quiet => exact fun _ => rfl

end Reached

/-- Every action keeps the invariant. -/
theorem Reached.step {s₀ s : S} {c c' : Config S Op A ι} {x : ι × Action Op}
    (h : Reached obj s₀ c s) (hstep : RwLock.step obj c x = some c') :
  ∃ s', Reached obj s₀ c' s'
  := by
  obtain ⟨t, x⟩ := x
  rcases step_cases obj hstep with ⟨op, -, hphase, rfl⟩ | ⟨op, l, -, hphase, hl, rfl⟩ |
    ⟨op, p, q, s', -, hphase, hnext, rfl⟩ | ⟨op, a, l, -, hphase, hl, rfl⟩
  · use s
    apply h.call hphase
  · use s
    apply h.enter hphase hl
  · use s
    apply h.access hphase hnext
  · use c.state
    apply h.leave hphase hl

open Interleave (run own)

/-- In every interleaving of the threads' actions the invariant holds. -/
theorem reached_of_run {s₀ : S} {c : Config S Op A ι} {es : List (ι × Action Op)}
    (hrun : run (step obj) (start s₀) es = some c) :
  ∃ s, Reached obj s₀ c s
  := by
  apply Interleave.run_induct (P := fun _ c => ∃ s, Reached obj s₀ c s) hrun
  · use s₀
    apply Reached.start
  · rintro es c x c' ⟨s, h⟩ hstep
    apply h.step hstep

/-! ## The order of the answers -/

/-- The operations called in some actions. -/
def calls (xs : List (Action Op)) : List Op := xs.filterMap Action.called

/-- Each thread's calls are answered in the order in which it made them, but for the one it is
in. -/
theorem own_log {s₀ : S} {c : Config S Op A ι} {es : List (ι × Action Op)}
    (hrun : run (step obj) (start s₀) es = some c) (t : ι) :
  (own t c.log).map Prod.fst ++ (c.phase t).pending = calls (own t es)
  := by
  apply Interleave.run_induct
    (P := fun es c => (own t c.log).map Prod.fst ++ (c.phase t).pending = calls (own t es)) hrun
  · rfl
  · rintro es c ⟨u, x⟩ c' ih hstep
    rw [Interleave.own_append]
    rcases eq_or_ne u t with rfl | hne
    · rw [Interleave.own_cons_self, calls, List.filterMap_append]
      change _ = calls (own u es) ++ _
      rw [← ih]
      rcases step_cases obj hstep with ⟨op, rfl, hphase, rfl⟩ | ⟨op, l, rfl, hphase, -, rfl⟩ |
        ⟨op, p, q, s', rfl, hphase, -, rfl⟩ | ⟨op, a, l, rfl, hphase, -, rfl⟩
      all_goals
        simp [hphase, Phase.pending, Action.called, own]
    · rw [Interleave.own_cons_of_ne hne]
      change _ = calls (own t es ++ [])
      rw [List.append_nil, ← ih]
      have hphase : ∀ φ, c.move u φ t = c.phase t := c.move_of_ne hne.symm
      rcases step_cases obj hstep with ⟨op, -, -, rfl⟩ | ⟨op, l, -, -, -, rfl⟩ |
        ⟨op, p, q, s', -, -, -, rfl⟩ | ⟨op, a, l, -, -, -, rfl⟩
      all_goals
        simp [hphase, own, hne]

/-- The calls answered come before those answered later. -/
theorem log_prefix {c c' : Config S Op A ι} {es : List (ι × Action Op)}
    (hrun : run (step obj) c es = some c') :
  c.log <+: c'.log
  := by
  apply Interleave.run_induct (P := fun _ c' => c.log <+: c'.log) hrun
  · exact List.prefix_rfl
  · rintro es c' ⟨u, x⟩ c'' ih hstep
    rcases step_cases obj hstep with ⟨op, -, -, rfl⟩ | ⟨op, l, -, -, -, rfl⟩ |
      ⟨op, p, q, s', -, -, -, rfl⟩ | ⟨op, a, l, -, -, -, rfl⟩
    · apply ih
    · apply ih
    · apply ih
    · apply ih.trans (List.prefix_append _ _)

/-- The calls answered and those under way were made. -/
theorem answered_le {s₀ : S} {c : Config S Op A ι} {es : List (ι × Action Op)}
    (hrun : run (step obj) (start s₀) es = some c) (busy : Finset ι)
    (hbusy : ∀ t ∈ busy, c.phase t ≠ .idle) :
  c.log.length + busy.card ≤ (calls (es.map Prod.snd)).length
  := by
  revert busy
  apply Interleave.run_induct
    (P := fun es c => ∀ busy : Finset ι, (∀ t ∈ busy, c.phase t ≠ .idle) →
      c.log.length + busy.card ≤ (calls (es.map Prod.snd)).length) hrun
  · intro busy hbusy
    have hempty : busy = ∅ := by
      apply Finset.eq_empty_of_forall_notMem
      intro t ht
      apply hbusy t ht
      rfl
    subst hempty
    rfl
  · rintro es c ⟨u, x⟩ c' ih hstep busy hbusy
    rw [List.map_append, calls, List.filterMap_append, List.length_append]
    change _ ≤ (calls (es.map Prod.snd)).length + _
    have hsame : (∀ t ∈ busy, c.phase t ≠ .idle) → c'.log = c.log →
        c'.log.length + busy.card ≤ (calls (es.map Prod.snd)).length
          + (([(u, x)].map Prod.snd).filterMap Action.called).length := by
      intro h hlog
      rw [hlog]
      apply (ih busy h).trans (Nat.le_add_right _ _)
    have hbefore : ∀ φ, c'.phase = c.move u φ → c.phase u ≠ .idle →
        ∀ t ∈ busy, c.phase t ≠ .idle := by
      intro φ hφ hu t ht
      rcases eq_or_ne t u with rfl | hne
      · apply hu
      · have h := hbusy t ht
        rwa [hφ, c.move_of_ne hne] at h
    rcases step_cases obj hstep with ⟨op, rfl, hphase, rfl⟩ | ⟨op, l, rfl, hphase, -, rfl⟩ |
      ⟨op, p, q, s', rfl, hphase, -, rfl⟩ | ⟨op, a, l, rfl, hphase, -, rfl⟩
    · have h := ih (busy.erase u) (by
        intro t ht
        obtain ⟨hne, ht⟩ := Finset.mem_erase.mp ht
        have h := hbusy t ht
        simpa only [Config.move_of_ne c hne] using h)
      have hcard := Finset.pred_card_le_card_erase (s := busy) (a := u)
      simp only [List.map_cons, List.map_nil, List.filterMap_cons, Action.called,
        List.filterMap_nil, List.length_singleton]
      omega
    · apply hsame (hbefore _ rfl (by simp [hphase])) rfl
    · apply hsame (hbefore _ rfl (by simp [hphase])) rfl
    · have hnot : u ∉ busy := by
        intro hu
        apply hbusy u hu
        apply c.move_self
      have h := ih (insert u busy) (by
        intro t ht
        rcases Finset.mem_insert.mp ht with rfl | ht
        · simp [hphase]
        · have hne : t ≠ u := fun heq => hnot (heq ▸ ht)
          have h := hbusy t ht
          simpa only [Config.move_of_ne c hne] using h)
      rw [Finset.card_insert_of_notMem hnot] at h
      simp only [List.length_append, List.length_singleton]
      omega

/-! ## Progress -/

/-- While no sequence of as many operations as were called fails, no access of a thread inside a
call does. -/
theorem Reached.access_isSome {s₀ s : S} {c : Config S Op A ι} {es : List (ι × Action Op)}
    (h : Reached obj s₀ c s) (hrun : run (RwLock.step obj) (RwLock.start s₀) es = some c)
    (hsafe : ∀ ops : List Op, ops.length ≤ (calls (es.map Prod.snd)).length →
      (obj.serial s₀ ops).isSome) {t : ι} {op : Op} {p : Prog S A}
    (hphase : c.phase t = .inside op p) :
  (∃ a, p = .done a) ∨ (p.next c.state).isSome
  := by
  have hlen := answered_le hrun {t} (by
    intro u hu
    obtain rfl := Finset.mem_singleton.mp hu
    rw [hphase]
    rintro ⟨⟩)
  rw [Finset.card_singleton] at hlen
  apply Prog.next_of_run
  rw [h.resume t op p hphase]
  apply obj.run_of_serial h.serial
  apply hsafe
  simpa [Config.ops] using hlen

/-- When no access of a thread inside a call fails, some thread can go on with its call while some
thread is in one. -/
theorem Reached.exists_next {s₀ s : S} {c : Config S Op A ι} (h : Reached obj s₀ c s)
    (haccess : ∀ t op p, c.phase t = .inside op p → (∃ a, p = .done a) ∨ (p.next c.state).isSome)
    {t : ι} (hbusy : c.phase t ≠ .idle) :
  ∃ u x, x.called = none ∧ (RwLock.step obj c (u, x)).isSome
  := by
  have hinside : ∀ u op p, c.phase u = .inside op p →
      ∃ u x, x.called = none ∧ (RwLock.step obj c (u, x)).isSome := by
    intro u op p hphase
    rcases haccess u op p hphase with ⟨a, rfl⟩ | hnext
    · use u, .leave, rfl
      obtain ⟨l, hl⟩ := Option.isSome_iff_exists.mp
        (Lock.release_of_holds (h.holds_inside hphase))
      simp [RwLock.step, hphase, hl]
    · use u, .access, rfl
      simp [RwLock.step, hphase, hnext]
  rcases c.lock.held_or_free with ⟨u, m, hu⟩ | hfree
  · rw [h.holds] at hu
    cases hphase : c.phase u with
    | inside op p => apply hinside u op p hphase
    | idle =>
      rw [hphase] at hu
      cases hu
    | waiting op =>
      rw [hphase] at hu
      cases hu
  · cases hphase : c.phase t with
    | idle => apply absurd hphase hbusy
    | inside op p => apply hinside t op p hphase
    | waiting op =>
      use t, .enter, rfl
      have hl := hfree t (obj.mode op)
      simp [RwLock.step, hphase, hl]

/-- Then, while some thread is in a call, some thread can go on with its own. -/
theorem Reached.progress {s₀ s : S} {c : Config S Op A ι} {es : List (ι × Action Op)}
    (h : Reached obj s₀ c s) (hrun : run (RwLock.step obj) (RwLock.start s₀) es = some c)
    (hsafe : ∀ ops : List Op, ops.length ≤ (calls (es.map Prod.snd)).length →
      (obj.serial s₀ ops).isSome) {t : ι} (hbusy : c.phase t ≠ .idle) :
  ∃ u x, x.called = none ∧ (RwLock.step obj c (u, x)).isSome
  := by
  apply h.exists_next _ hbusy
  intro u op p hphase
  apply h.access_isSome hrun hsafe hphase

/-! ## Observations without the lock -/

section Observe

variable {O : Type} {o : S → O}

/-- Of an observation that each operation changes at most once: inside a call it is still what it
was before the call, or what is left of the call keeps it. -/
structure Seen (o : S → O) (obj : Object S Op A) (s₀ : S) (c : Config S Op A ι) (s : S) : Prop
    extends Reached obj s₀ c s where
  seen : ∀ t op p, c.phase t = .inside op p → o c.state = o s ∧ p.Once o ∨ p.Keeps o

/-- Every action keeps it. -/
theorem Seen.step {s₀ s : S} {c c' : Config S Op A ι} {x : ι × Action Op}
    (hobj : ∀ op, (obj.body op).Once o) (h : Seen o obj s₀ c s)
    (hstep : RwLock.step obj c x = some c') :
  ∃ s', Seen o obj s₀ c' s'
  := by
  obtain ⟨t, x⟩ := x
  rcases step_cases obj hstep with ⟨op, -, hphase, rfl⟩ | ⟨op, l, -, hphase, hl, rfl⟩ |
    ⟨op, p, q, s', -, hphase, hnext, rfl⟩ | ⟨op, a, l, -, hphase, hl, rfl⟩
  · use s
    constructor
    case toReached => apply h.call hphase
    case seen =>
      intro u op' p hu
      rcases c.move_inside hu with ⟨-, ⟨⟩⟩ | ⟨-, hold⟩
      apply h.seen u op' p hold
  · use s
    constructor
    case toReached => apply h.enter hphase hl
    case seen =>
      intro u op' p hu
      rcases c.move_inside hu with ⟨-, heq⟩ | ⟨-, hold⟩
      · obtain ⟨rfl, rfl⟩ := Phase.inside.inj heq
        left
        exact ⟨congrArg o (h.quiet (Lock.holds_acquire hl).1), hobj op⟩
      · apply h.seen u op' p hold
  · use s
    have hreached := h.toReached.access hphase hnext
    constructor
    case toReached => apply hreached
    case seen =>
      intro u op' p' hu
      rcases c.move_inside hu with ⟨-, heq⟩ | ⟨hne, hold⟩
      · obtain ⟨rfl, rfl⟩ := Phase.inside.inj heq
        rcases h.seen t op p hphase with ⟨hsame, honce⟩ | hkeeps
        · rcases honce.next hnext with ⟨hst, hq⟩ | hq
          · left
            exact ⟨hst.trans hsame, hq⟩
          · right
            apply hq
        · right
          apply (hkeeps.next hnext).2
      · cases hmode : obj.mode op with
        | shared =>
          rw [((h.reader t op p hphase hmode).next hnext).1]
          apply h.seen u op' p' hold
        | exclusive =>
          have hheld := h.holds_inside hphase
          rw [hmode] at hheld
          apply absurd (hheld.alone (h.holds_inside hold)).1 hne
  · use c.state
    have hheld := h.holds_inside hphase
    constructor
    case toReached => apply h.toReached.leave hphase hl
    case seen =>
      intro u op' p hu
      rcases c.move_inside hu with ⟨-, ⟨⟩⟩ | ⟨-, hold⟩
      rcases h.seen u op' p hold with ⟨-, honce⟩ | hkeeps
      · left
        exact ⟨rfl, honce⟩
      · right
        apply hkeeps

/-- Of an observation that each operation changes at most once, a glance without the lock sees
what the answered operations left, or what they and the call of the writer inside leave. -/
theorem exists_observed {s₀ : S} {c : Config S Op A ι} {es : List (ι × Action Op)}
    (hobj : ∀ op, (obj.body op).Once o)
    (hrun : run (step obj) (start s₀) es = some c)
    (hsafe : ∀ ops : List Op, ops.length ≤ (calls (es.map Prod.snd)).length →
      (obj.serial s₀ ops).isSome) :
  ∃ s, Reached obj s₀ c s ∧
    (o c.state = o s ∨
      ∃ t op p a s', c.phase t = .inside op p ∧ (obj.body op).run s = some (a, s') ∧
        o c.state = o s')
  := by
  obtain ⟨s, h⟩ : ∃ s, Seen o obj s₀ c s := by
    apply Interleave.run_induct (P := fun _ c => ∃ s, Seen o obj s₀ c s) hrun
    · use s₀
      constructor
      case toReached => apply Reached.start
      case seen =>
        intro t op p hphase
        cases hphase
    · rintro es c x c' ⟨s, h⟩ hstep
      apply h.step hobj hstep
  use s, h.toReached
  by_cases hwriter : ∃ t, c.lock.Holds t .exclusive
  · obtain ⟨t, ht⟩ := hwriter
    rw [h.holds] at ht
    cases hphase : c.phase t with
    | idle =>
      rw [hphase] at ht
      cases ht
    | waiting op =>
      rw [hphase] at ht
      cases ht
    | inside op p =>
      rcases h.seen t op p hphase with ⟨hsame, -⟩ | hkeeps
      · left
        apply hsame
      · right
        have hsome : ((obj.body op).run s).isSome := by
          apply obj.run_of_serial h.serial
          apply hsafe
          have hlen := answered_le hrun {t} (by
            intro u hu
            obtain rfl := Finset.mem_singleton.mp hu
            rw [hphase]
            rintro ⟨⟩)
          rw [Finset.card_singleton] at hlen
          simpa [Config.ops] using hlen
        obtain ⟨⟨a, s'⟩, hbody⟩ := Option.isSome_iff_exists.mp hsome
        use t, op, p, a, s', hphase, hbody
        rw [← h.resume t op p hphase] at hbody
        apply (hkeeps.run hbody).symm
  · left
    rw [h.quiet (not_exists.mp hwriter)]

end Observe

end Objects

end RwLock
