import Treewalk.Proofs.Trail

/-!
Casts. What a cast gives conforms to the type that it was cast to, and a further cast to this type gives it back.
A value that conforms already is its own cast; an instance is converted by a method, and what the method returns
is checked; and a plain conversion gives a value of the type that has the kind asked for. This last type is the
one that was meant, since a type that a program can come by is known by its kind, unless it is an array or object
type, and to these there is no plain conversion.
-/

namespace Treewalk

open Plan

theorem TypeDesc.agrees_any (t : TypeDesc) : t.agrees .any = true := by
  have plain : TypeDesc.any.isPlainAny = true := by decide
  unfold agrees
  cases t.dimensions <;> simp [agreesWithin, plain]

namespace Evaluator

variable {value result : Value} {t : TypeDesc} {line : Line} {fuel : Nat} {m after : Machine}

theorem conforms_any (h : Heap) (value : Value) : h.conforms value .any = true := by
  simp [Heap.conforms, TypeDesc.agrees_any]

/-- A plain conversion gives a value of the type that has the kind asked for. -/
theorem castPlain_conforms (denotable : t.Denotable) (flat : t.isArray = false)
    (done : (castPlain value t line m).outcome (perform fuel) = .ok result after) :
    after.heap.conforms result t = true := by
  have own {named : TypeDesc} {kind : TypeKind} (same : t.kind = kind)
      (has : TypeDesc.Denotable.named? kind = some named) : t = named :=
    denotable.eq_of_kind flat (by rw [same, has])
  generalize conversion : castPlain value t line = c at done
  unfold castPlain at conversion
  split at conversion
  · rename_i kind
    split at conversion <;> subst conversion <;> cases done
    rw [own kind rfl]
    exact conforms_typeOf _ _
  all_goals subst conversion
  · rename_i kind
    cases done
    rw [own kind rfl]
    exact conforms_typeOf _ _
  · rename_i kind
    obtain ⟨text, _, -, done⟩ := Run.outcome_bind_ok done
    cases done
    rw [own kind rfl]
    exact conforms_typeOf _ (.str text)
  iterate 3
    · rename_i kind
      cases done
      rw [own kind rfl]
      exact conforms_typeOf _ _
  · rename_i kind
    cases done
    rw [own kind rfl]
    exact conforms_any _ _
  · cases done

theorem castObject_conforms {o : Ref .object}
    (done : (castObject o t line m).outcome (perform fuel) = .ok result after) :
    after.heap.conforms result t = true := by
  obtain ⟨_, _, -, done⟩ := Run.outcome_bind_ok done
  obtain ⟨_, _, -, done⟩ := Run.outcome_bind_ok done
  obtain ⟨_, _, -, done⟩ := Run.outcome_bind_ok done
  rw [Run.heap_bind] at done
  obtain ⟨_, _, demanded, given⟩ := Run.outcome_bind_ok done
  obtain ⟨conforms, rfl⟩ := Run.demand_ok demanded
  cases given
  exact conforms

theorem castValue_conforms (denotable : t.Denotable)
    (done : (castValue value t line m).outcome (perform fuel) = .ok result after) :
    after.heap.conforms result t = true := by
  rw [castValue, Run.heap_bind] at done
  split at done
  · rename_i already
    cases done
    exact (Bool.and_eq_true_iff.mp already).1
  · split at done
    · split at done
      · exact castObject_conforms done
      · rename_i text
        exact castPlain_conforms denotable (by simpa using (not_or.mp text).2) done
    · split at done
      · cases done
      · rename_i flat
        exact castPlain_conforms denotable (by simpa using flat) done

theorem castValue_of_conforms (conforms : m.heap.conforms value t = true) (present : value ≠ .nil) (line : Line) :
    castValue value t line m = .done (.ok value m) := by
  have some : value.isNil = false := by
    cases value with
    | nil => exact absurd rfl present
    | _ => rfl
  rw [castValue, Run.heap_bind, conforms, some]
  rfl

theorem typeArgument_denotable {w : World} {type : Value} (known : w.Known .typing type)
    (denotes : typeArgument type line m = .done (.ok t after)) : t.Denotable := by
  rw [typeArgument, Run.heap_bind] at denotes
  cases type with
  | type own =>
    cases denotes
    exact known trivial
  | cls c | interface i | enumeration e =>
    cases denotes
    exact .object _
  | _ => cases denotes

end Evaluator

/-- In every run, if a value stands for a type, then whatever is cast to this type conforms to it; and if it is not
nil, another cast to the type gives it back and leaves the machine as it is. -/
theorem casts_conform {H : List Event} {m : Machine} (reached : Reached H m) {e : Expr} {start made : Machine}
    {type : Value} (produced : .ended (.expr e) start (.ok type made) ∈ H) {before denoted : Machine} {line : Line}
    {t : TypeDesc} (denotes : Evaluator.typeArgument type line before = .done (.ok t denoted)) {value result : Value}
    {fuel : Nat} {after : Machine}
    (cast : (Evaluator.castValue value t line denoted).outcome (perform fuel) = .ok result after) :
    after.heap.conforms result t = true ∧
      (result ≠ .nil → ∀ line, Evaluator.castValue result t line after = .done (.ok result after)) := by
  obtain ⟨w, trail, -⟩ := reached.typing
  obtain ⟨v, seen, -, -⟩ := trail.seen produced
  have known : v.Known .typing type := seen.good type made rfl
  have conforms := Evaluator.castValue_conforms (Evaluator.typeArgument_denotable known denotes) cast
  exact ⟨conforms, Evaluator.castValue_of_conforms conforms⟩

def Event.givesBoolean : Event → Bool
  | .ended (.expr _) _ (.ok (.type t) _) => t = .boolean
  | _ => false

theorem Event.givesBoolean_cases {e : Event} (gives : e.givesBoolean = true) :
    ∃ written start made, e = .ended (.expr written) start (.ok (.type .boolean) made) := by
  unfold Event.givesBoolean at gives
  split at gives
  · obtain rfl := of_decide_eq_true gives
    exact ⟨_, _, _, rfl⟩
  · cases gives

def Outcome.isTrue : Outcome Value → Bool
  | .ok (.bool true) _ => true
  | _ => false

theorem Outcome.isTrue_cases {outcome : Outcome Value} (isTrue : outcome.isTrue = true) :
    ∃ after, outcome = .ok (.bool true) after := by
  unfold Outcome.isTrue at isTrue
  split at isTrue
  · exact ⟨_, rfl⟩
  · cases isTrue

def castingSource : String :=
  "class A \x7b cast method toBool() -> bool \x7b return true; \x7d \x7d var b = A() as bool;"

set_option maxRecDepth 100000 in
/-- The instance is cast once more, by its method, and the result is its own cast. -/
theorem casts_conform_instance :
    ∃ H m after, Reached H m ∧
      (Evaluator.castValue (.object ⟨0⟩) .boolean 1 m).outcome (perform 20) = .ok (.bool true) after ∧
      after.heap.conforms (.bool true) .boolean = true ∧
      Evaluator.castValue (.bool true) .boolean 1 after = .done (.ok (.bool true) after) := by
  have reached := Reached.text 20 castingSource
  have some : ((Session.start {}).events 20 castingSource).any Event.givesBoolean = true := by decide +kernel
  have cast : (Evaluator.castValue (.object ⟨0⟩) .boolean 1
      ((Session.start {}).run 20 castingSource).machine |>.outcome (perform 20)).isTrue = true := by decide +kernel
  generalize ((Session.start {}).run 20 castingSource).machine = m at reached cast
  obtain ⟨e, member, gives⟩ := List.any_eq_true.mp some
  obtain ⟨written, start, made, rfl⟩ := Event.givesBoolean_cases gives
  obtain ⟨after, cast⟩ := Outcome.isTrue_cases cast
  have denotes : Evaluator.typeArgument (.type .boolean) 1 m = .done (.ok .boolean m) := rfl
  obtain ⟨conforms, stable⟩ := casts_conform reached member denotes cast
  exact ⟨_, m, after, reached, cast, conforms, stable (by simp) 1⟩

end Treewalk
