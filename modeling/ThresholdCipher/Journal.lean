import ThresholdCipher.Failure

/-
The journal: records of what was asked for and what was noticed.

An operation that keeps a journal returns its value together with the records
written on the way, oldest first.  An `Attempt` may fail besides, and its records
survive the failure.  `Attempt.result` forgets the journal; it commutes with
sequencing, so a statement about results never has to mention records.
-/

namespace ThresholdCipher

inductive Level
  | warn
  | info
  | debug
  | trace
  deriving DecidableEq, Repr

def Level.name : Level → String
  | .warn => "warn"
  | .info => "info"
  | .debug => "debug"
  | .trace => "trace"

inductive Detail
  | number (n : Nat)
  | flag (b : Bool)
  | text (s : String)
  deriving DecidableEq, Repr

/-- An operation was entered, or an event happened inside one. -/
inductive RecordKind
  | entered
  | event
  deriving DecidableEq, Repr

structure Record where
  kind : RecordKind
  title : String
  level : Level
  details : List (String × Detail)
  deriving DecidableEq, Repr

/-- A value with the records written on the way to it. -/
structure Journaled (α : Type) where
  value : α
  records : List Record

namespace Journaled

variable {α β : Type}

instance : Monad Journaled where
  pure a := ⟨a, []⟩
  bind x f := ⟨(f x.value).value, x.records ++ (f x.value).records⟩

def write (record : Record) : Journaled Unit := ⟨(), [record]⟩

@[simp] theorem value_pure (a : α) : (pure a : Journaled α).value = a := rfl
@[simp] theorem records_pure (a : α) : (pure a : Journaled α).records = [] := rfl

@[simp] theorem value_bind (x : Journaled α) (f : α → Journaled β) :
    (x >>= f).value = (f x.value).value := rfl

@[simp] theorem records_bind (x : Journaled α) (f : α → Journaled β) :
    (x >>= f).records = x.records ++ (f x.value).records := rfl

theorem ext {x y : Journaled α} (hv : x.value = y.value) (hr : x.records = y.records) : x = y := by
  cases x; cases y; cases hv; cases hr; rfl

instance : LawfulMonad Journaled := LawfulMonad.mk' Journaled
  (fun x => ext rfl (List.append_nil x.records))
  (fun _ _ => ext rfl (List.nil_append _))
  (fun _ _ _ => ext rfl (List.append_assoc _ _ _))

end Journaled

/-- A journaled operation that may fail. -/
abbrev Attempt (α : Type) := ExceptT Failure Journaled α

def entered (operation : String) (level : Level) (details : List (String × Detail)) :
    Journaled Unit :=
  .write ⟨.entered, operation, level, details⟩

def event (message : String) (level : Level) (details : List (String × Detail)) :
    Journaled Unit :=
  .write ⟨.event, message, level, details⟩

namespace Attempt

variable {α β : Type}

/-- The outcome without the journal. -/
def result (x : Attempt α) : Except Failure α := x.run.value

def records (x : Attempt α) : List Record := x.run.records

def ofExcept (x : Except Failure α) : Attempt α := ExceptT.mk (pure x)

def refuse (e : Error) : Attempt α := throw (.error e)

/-- Continue with the value, or fail with the error for the caller. -/
def orRefuse (x : Except Error α) : Attempt α := ofExcept (x.mapError .error)

/-- What was drawn from a source of random words, or the failure that it ran dry. -/
def drawn : Option α → Attempt α
  | some a => pure a
  | none => throw .entropyExhausted

@[simp] theorem result_drawn_some (a : α) : result (drawn (some a)) = .ok a := rfl

@[simp] theorem result_drawn_none : result (drawn (none : Option α)) = .error .entropyExhausted :=
  rfl

@[simp] theorem result_pure (a : α) : result (pure a) = .ok a := rfl
@[simp] theorem result_throw (e : Failure) : result (throw e : Attempt α) = .error e := rfl
@[simp] theorem result_refuse (e : Error) : result (refuse e : Attempt α) = .error (.error e) := rfl
@[simp] theorem result_ofExcept (x : Except Failure α) : result (ofExcept x) = x := rfl

@[simp] theorem result_orRefuse (x : Except Error α) :
    result (orRefuse x) = x.mapError .error := rfl

@[simp] theorem result_lift (x : Journaled α) : result (ExceptT.lift x) = .ok x.value := rfl

@[simp] theorem result_liftM (x : Journaled α) : result (liftM x : Attempt α) = .ok x.value := rfl

@[simp] theorem result_bind (x : Attempt α) (f : α → Attempt β) :
    result (x >>= f) = x.result >>= fun a => (f a).result := by
  show Journaled.value (ExceptT.run (ExceptT.bind x f)) = _
  unfold ExceptT.bind ExceptT.run ExceptT.mk ExceptT.bindCont
  rw [Journaled.value_bind]
  unfold result ExceptT.run
  cases Journaled.value x with
  | error e => rfl
  | ok a => rfl

end Attempt
end ThresholdCipher
