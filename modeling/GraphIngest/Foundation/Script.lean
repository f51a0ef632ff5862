import Mathlib.Logic.Function.Basic

/-! # Scripts

A script reads a store, changes it and goes on as what it has read tells. Between
two of its steps others may change the store; run without interruption it takes a
store to its outcome.
-/

namespace GraphIngest.Foundation

/-- A program that takes a store through atomic steps. -/
inductive Script (σ : Type*)
  | done
  | step (change : σ → σ) (next : σ → Script σ)

namespace Script

variable {σ : Type*}

/-- The outcome of a script that runs alone. -/
def run : Script σ → σ → σ
  | done, store => store
  | step change next, store => (next store).run (change store)

/-- The first steps of a script. -/
def cut : Nat → Script σ → Script σ
  | 0, _ => done
  | _ + 1, done => done
  | count + 1, step change next => step change fun store => (next store).cut count

/-- The script of some changes, one after the other. -/
def ofChanges : List (σ → σ) → Script σ
  | [] => done
  | change :: rest => step change fun _ => ofChanges rest

theorem run_ofChanges (changes : List (σ → σ)) (store : σ) :
    (ofChanges changes).run store = changes.foldl (fun store change => change store) store := by
  induction changes generalizing store with
  | nil => rfl
  | cons change rest ih => exact ih (change store)

end Script

end GraphIngest.Foundation
