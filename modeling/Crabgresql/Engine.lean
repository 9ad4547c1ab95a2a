import Crabgresql.Session

/-!
# One engine and its sessions

An engine shares its store, running set, lock table and sequences among its
sessions; a step of the engine is a step of one of them.
-/

namespace Crabgresql.Engine

open Mvcc Kv Procarray Lockmgr Exec Session

abbrev SessionId := ℕ

structure SqlEngine (Row : Type) where
  kv : Store Row
  pa : ProcArray
  lm : LockMgr
  seq : SequenceManager
  sessions : SessionId → Sess Row

variable {Row : Type}

namespace SqlEngine

def boot (kv : Store Row) : SqlEngine Row := ⟨kv, .open kv, .new, .new, fun _ => .new⟩

def view (e : SqlEngine Row) (s : SessionId) : View Row := ⟨e.kv, e.pa, e.lm, e.seq, e.sessions s⟩

def set (e : SqlEngine Row) (s : SessionId) (v : View Row) : SqlEngine Row :=
  ⟨v.kv, v.pa, v.lm, v.seq, Function.update e.sessions s v.self⟩

def step (env : Env) (e : SqlEngine Row) (s : SessionId) (a : Act Row) : Option (SqlEngine Row) :=
  (Session.step env (e.view s) a).map (e.set s)

end SqlEngine

end Crabgresql.Engine
