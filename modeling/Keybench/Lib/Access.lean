import Mathlib.Data.List.Basic

/-!
# Programs that access a shared state

A program reads and writes a state one access at a time, and an access may fail.  `run` goes
through a whole program without interruption, and `next` takes one access, so that programs may
be interleaved.  A program may leave the state as it is (`ReadOnly`), it may keep an observation
of the state (`Keeps`), or change it at one of its writes only (`Once`).
-/

namespace Access

/-- A program on states of type `S` that ends with a value of type `α`. -/
inductive Prog (S α : Type) : Type 1 where
  /-- The program has ended. -/
  | done (a : α)
  /-- Read something off the state and go on with it. -/
  | read {β : Type} (f : S → Option β) (k : β → Prog S α)
  /-- Change the state and go on. -/
  | write (f : S → Option S) (k : Prog S α)

namespace Prog

variable {S α β γ : Type}

/-- A program after another, with the value of the first. -/
def bind : Prog S α → (α → Prog S β) → Prog S β
  | done a, q => q a
  | read f k, q => read f fun b => (k b).bind q
  | write f k, q => write f (k.bind q)

instance : Monad (Prog S) where
  pure := done
  bind := bind

/-- One read. -/
def get (f : S → Option α) : Prog S α := read f done

/-- One write. -/
def set (f : S → Option S) : Prog S Unit := write f (done ())

/-- A computation that does not touch the state and may fail. -/
def lift (a : Option α) : Prog S α := get fun _ => a

/-! ## Whole runs -/

/-- The value a program ends with and the state it leaves, or `none` when an access fails. -/
def run : Prog S α → S → Option (α × S)
  | done a, s => some (a, s)
  | read f k, s => (f s).bind fun b => (k b).run s
  | write f k, s => (f s).bind fun s => k.run s

@[simp]
theorem run_pure (a : α) (s : S) :
  (pure a : Prog S α).run s = some (a, s)
  := rfl

@[simp]
theorem run_get (f : S → Option α) (s : S) :
  (get f).run s = (f s).map fun a => (a, s)
  := by
  cases h : f s <;> simp [get, run, h]

@[simp]
theorem run_set (f : S → Option S) (s : S) :
  (set f).run s = (f s).map fun s => ((), s)
  := by
  cases h : f s <;> simp [set, run, h]

@[simp]
theorem run_lift (a : Option α) (s : S) :
  (lift a).run s = a.map fun a => (a, s)
  := run_get ..

@[simp]
theorem run_bind (p : Prog S α) (q : α → Prog S β) (s : S) :
  (p >>= q).run s = (p.run s).bind fun x => (q x.1).run x.2
  := by
  change (p.bind q).run s = _
  induction p generalizing s with
  | done a => rfl
  | read f k ih =>
    rw [bind, run, run, Option.bind_assoc]
    congr 1
    funext b
    apply ih
  | write f k ih =>
    rw [bind, run, run, Option.bind_assoc]
    congr 1
    funext t
    apply ih

/-! ## Single accesses -/

/-- The next access of a program that has not ended, and what is left of the program. -/
def next : Prog S α → S → Option (Prog S α × S)
  | done _, _ => none
  | read f k, s => (f s).map fun b => (k b, s)
  | write f k, s => (f s).map fun s => (k, s)

/-- An access leaves a program with the same outcome. -/
theorem run_next {p q : Prog S α} {s t : S} (h : p.next s = some (q, t)) :
  p.run s = q.run t
  := by
  cases p with
  | done a => cases h
  | read f k =>
    obtain ⟨b, hb, heq⟩ := Option.map_eq_some_iff.mp h
    obtain ⟨rfl, rfl⟩ := Prod.mk.inj heq
    rw [run, hb, Option.bind_some]
  | write f k =>
    obtain ⟨u, hu, heq⟩ := Option.map_eq_some_iff.mp h
    obtain ⟨rfl, rfl⟩ := Prod.mk.inj heq
    rw [run, hu, Option.bind_some]

/-- A program that runs through has ended or can take its next access. -/
theorem next_of_run {p : Prog S α} {s : S} (h : (p.run s).isSome) :
  (∃ a, p = done a) ∨ (p.next s).isSome
  := by
  cases p with
  | done a =>
    left
    use a
  | read f k =>
    right
    obtain ⟨x, hx⟩ := Option.isSome_iff_exists.mp h
    obtain ⟨b, hb, -⟩ := Option.bind_eq_some_iff.mp hx
    rw [next, hb]
    rfl
  | write f k =>
    right
    obtain ⟨x, hx⟩ := Option.isSome_iff_exists.mp h
    obtain ⟨t, ht, -⟩ := Option.bind_eq_some_iff.mp hx
    rw [next, ht]
    rfl

/-! ## Programs that only read -/

/-- No access is a write. -/
def ReadOnly : Prog S α → Prop
  | done _ => True
  | read _ k => ∀ b, (k b).ReadOnly
  | write _ _ => False

theorem ReadOnly.pure (a : α) :
  (Pure.pure a : Prog S α).ReadOnly
  := trivial

theorem ReadOnly.get (f : S → Option α) :
  (Prog.get f).ReadOnly
  := fun _ => trivial

theorem ReadOnly.lift (a : Option α) :
  (Prog.lift a : Prog S α).ReadOnly
  := fun _ => trivial

theorem ReadOnly.bind {p : Prog S α} {q : α → Prog S β} (hp : p.ReadOnly)
    (hq : ∀ a, (q a).ReadOnly) :
  (p >>= q).ReadOnly
  := by
  change (p.bind q).ReadOnly
  induction p with
  | done a => apply hq
  | read f k ih =>
    intro b
    apply ih b (hp b)
  | write f k ih => apply hp.elim

/-- An access that only reads leaves the state. -/
theorem ReadOnly.next {p q : Prog S α} {s t : S} (h : p.ReadOnly) (hnext : p.next s = some (q, t)) :
  t = s ∧ q.ReadOnly
  := by
  cases p with
  | done a => cases hnext
  | read f k =>
    obtain ⟨b, -, heq⟩ := Option.map_eq_some_iff.mp hnext
    obtain ⟨rfl, rfl⟩ := Prod.mk.inj heq
    use rfl
    apply h b
  | write f k => apply h.elim

/-! ## Observations -/

/-- No write changes the observation `o`. -/
def Keeps (o : S → γ) : Prog S α → Prop
  | done _ => True
  | read _ k => ∀ b, (k b).Keeps o
  | write f k => (∀ s t, f s = some t → o t = o s) ∧ k.Keeps o

/-- At most one write changes the observation `o`. -/
def Once (o : S → γ) : Prog S α → Prop
  | done _ => True
  | read _ k => ∀ b, (k b).Once o
  | write f k => (∀ s t, f s = some t → o t = o s) ∧ k.Once o ∨ k.Keeps o

variable {o : S → γ}

theorem Keeps.pure (a : α) :
  (Pure.pure a : Prog S α).Keeps o
  := trivial

theorem Keeps.get (f : S → Option α) :
  (Prog.get f).Keeps o
  := fun _ => trivial

theorem Keeps.lift (a : Option α) :
  (Prog.lift a : Prog S α).Keeps o
  := fun _ => trivial

theorem Keeps.set {f : S → Option S} (h : ∀ s t, f s = some t → o t = o s) :
  (Prog.set f).Keeps o
  := ⟨h, trivial⟩

theorem Keeps.bind {p : Prog S α} {q : α → Prog S β} (hp : p.Keeps o) (hq : ∀ a, (q a).Keeps o) :
  (p >>= q).Keeps o
  := by
  change (p.bind q).Keeps o
  induction p with
  | done a => apply hq
  | read f k ih =>
    intro b
    apply ih b (hp b)
  | write f k ih =>
    use hp.1
    apply ih hp.2

theorem Keeps.once {p : Prog S α} (h : p.Keeps o) :
  p.Once o
  := by
  induction p with
  | done a => trivial
  | read f k ih =>
    intro b
    apply ih b (h b)
  | write f k ih =>
    left
    use h.1
    apply ih h.2

theorem Once.set (f : S → Option S) :
  (Prog.set f).Once o
  := Or.inr trivial

/-- The write is in the second of two programs. -/
theorem Once.bind_right {p : Prog S α} {q : α → Prog S β} (hp : p.Keeps o)
    (hq : ∀ a, (q a).Once o) :
  (p >>= q).Once o
  := by
  change (p.bind q).Once o
  induction p with
  | done a => apply hq
  | read f k ih =>
    intro b
    apply ih b (hp b)
  | write f k ih =>
    left
    use hp.1
    apply ih hp.2

/-- The write is in the first of two programs. -/
theorem Once.bind_left {p : Prog S α} {q : α → Prog S β} (hp : p.Once o)
    (hq : ∀ a, (q a).Keeps o) :
  (p >>= q).Once o
  := by
  change (p.bind q).Once o
  induction p with
  | done a =>
    apply Keeps.once
    apply hq
  | read f k ih =>
    intro b
    apply ih b (hp b)
  | write f k ih =>
    rcases hp with ⟨hf, hk⟩ | hk
    · left
      use hf
      apply ih hk
    · right
      apply Keeps.bind hk hq

/-- A program that only reads keeps every observation. -/
theorem ReadOnly.keeps {p : Prog S α} (h : p.ReadOnly) :
  p.Keeps o
  := by
  induction p with
  | done a => trivial
  | read f k ih =>
    intro b
    apply ih b (h b)
  | write f k ih => apply h.elim

/-- What a program keeps is the same after its run. -/
theorem Keeps.run {p : Prog S α} {s t : S} {a : α} (h : p.Keeps o) (hrun : p.run s = some (a, t)) :
  o t = o s
  := by
  induction p generalizing s with
  | done b =>
    obtain ⟨-, rfl⟩ := Prod.mk.inj (Option.some.inj hrun)
    rfl
  | read f k ih =>
    obtain ⟨b, -, hrest⟩ := Option.bind_eq_some_iff.mp hrun
    apply ih b (h b) hrest
  | write f k ih =>
    obtain ⟨u, hu, hrest⟩ := Option.bind_eq_some_iff.mp hrun
    rw [ih h.2 hrest, h.1 s u hu]

/-- What a program keeps is the same after an access. -/
theorem Keeps.next {p q : Prog S α} {s t : S} (h : p.Keeps o) (hnext : p.next s = some (q, t)) :
  o t = o s ∧ q.Keeps o
  := by
  cases p with
  | done a => cases hnext
  | read f k =>
    obtain ⟨b, -, heq⟩ := Option.map_eq_some_iff.mp hnext
    obtain ⟨rfl, rfl⟩ := Prod.mk.inj heq
    use rfl
    apply h b
  | write f k =>
    obtain ⟨u, hu, heq⟩ := Option.map_eq_some_iff.mp hnext
    obtain ⟨rfl, rfl⟩ := Prod.mk.inj heq
    use h.1 s u hu
    apply h.2

/-- An access of a program that changes `o` once has not changed it yet, or the rest keeps it. -/
theorem Once.next {p q : Prog S α} {s t : S} (h : p.Once o) (hnext : p.next s = some (q, t)) :
  o t = o s ∧ q.Once o ∨ q.Keeps o
  := by
  cases p with
  | done a => cases hnext
  | read f k =>
    obtain ⟨b, -, heq⟩ := Option.map_eq_some_iff.mp hnext
    obtain ⟨rfl, rfl⟩ := Prod.mk.inj heq
    left
    use rfl
    apply h b
  | write f k =>
    obtain ⟨u, hu, heq⟩ := Option.map_eq_some_iff.mp hnext
    obtain ⟨rfl, rfl⟩ := Prod.mk.inj heq
    rcases h with ⟨hf, hk⟩ | hk
    · left
      use hf s u hu
    · right
      apply hk

end Prog

end Access
