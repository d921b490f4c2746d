import JsonShape.Refusal

/-!
# Logged results

A computation that may be refused gives its result together with what it logged on the way.  What
was logged before a refusal stays.

* `Logged.bind_of_eq_ok`     a result is gone on with, and what is logged then comes after;
* `Logged.bind_of_eq_error`  after a refusal nothing comes.
-/

namespace JsonShape

/-- what was logged, in order, and what came of it -/
structure Logged (α : Type) where
  log : List Log.Entry
  result : Except Refusal α

namespace Logged
variable {α β : Type}

/-- a result about which nothing is logged -/
abbrev ok (a : α) : Logged α := ⟨[], .ok a⟩

/-- go on with the result, if there is one -/
def bind (x : Logged α) (f : α → Logged β) : Logged β :=
  match x.result with
  | .ok a => ⟨x.log ++ (f a).log, (f a).result⟩
  | .error refusal => ⟨x.log, .error refusal⟩

/-- what is made of the result, if there is one; nothing more is logged -/
def map (f : α → β) (x : Logged α) : Logged β := ⟨x.log, x.result.map f⟩

theorem ok_inj {a b : α} (h : ok a = ok b) : a = b := Except.ok.inj (congrArg result h)

theorem ok_bind (a : α) (f : α → Logged β) : (ok a).bind f = f a := rfl

theorem bind_of_eq_ok {x : Logged α} {a : α} (h : x.result = .ok a) (f : α → Logged β) :
    x.bind f = ⟨x.log ++ (f a).log, (f a).result⟩ := by
  rw [bind, h]

theorem bind_of_eq_error {x : Logged α} {refusal : Refusal} (h : x.result = .error refusal)
    (f : α → Logged β) : x.bind f = ⟨x.log, .error refusal⟩ := by
  rw [bind, h]

end Logged
end JsonShape
