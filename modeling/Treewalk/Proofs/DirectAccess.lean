import Treewalk.Proofs.Chains
import Treewalk.Proofs.MemberWrites

/-!
Names at a distance. A name is looked up by walking outward, or in the scope at a distance that is known. However
scopes have been made, bound and written to, both ways lead to the same cell: what is read is the same, and a
write comes to the same, which is a new value for this one cell or no change at all.
-/

namespace Treewalk

/-- The links from a record on end, if each leads to an older one. -/
theorem follow_chain {region : Region} {next : Ref region → Option (Ref region)}
    (older : ∀ a b : Ref region, next a = some b → b.index < a.index) {fuel : Nat} {a : Ref region}
    (enough : a.index < fuel) : Chain next a (follow next fuel a) := by
  induction fuel generalizing a with
  | zero => omega
  | succ fuel ih =>
    unfold follow
    cases leads : next a with
    | none => exact .last leads
    | some b =>
      have before := older a b leads
      exact .link leads (ih (by omega))

namespace Heap

/-- The heap after a write to a name. What is handed to a setter is left to whoever writes. -/
def settle (h : Heap) (name : String) : Except Fault Assigned → Heap
  | .ok (.stored target cell) => h.define target name cell
  | .ok (.computed _) => h
  | .error _ => h

/-- A heap whose scopes have been made, alone, inside another or beside another, and in which names have been bound
and written to in both ways, in any order. -/
inductive Built : Heap → Prop where
  | empty {h : Heap} (none : h.scopes = #[]) : Built h
  | new {h : Heap} (before : Built h) : Built (h.addScope {}).2
  | child {h : Heap} {r : Ref .scope} (before : Built h) (there : r.index < h.scopes.size) : Built (h.child r).2
  | fork {h : Heap} {r : Ref .scope} (before : Built h) (there : r.index < h.scopes.size) : Built (h.fork r).2
  | define {h : Heap} (before : Built h) (r : Ref .scope) (name : String) (cell : Cell) : Built (h.define r name cell)
  | assign {h : Heap} (before : Built h) (r : Ref .scope) (name : String) (value : Value) :
      Built (h.settle name (h.assign r name value))
  | assignAt {h : Heap} (before : Built h) (r : Ref .scope) (distance : Nat) (name : String) (value : Value) :
      Built (h.settle name (h.assignAt r distance name value))

/-- The nearest scope outward that binds a name, and the number of links to it. -/
structure Nearest (h : Heap) (r : Ref .scope) (name : String) (distance : Nat) (s : Ref .scope) : Prop where
  there : h.ancestor? distance r = some s
  binds : (h.here? s name).isSome = true
  nearer : ∀ d < distance, ∀ s', h.ancestor? d r = some s' → h.here? s' name = none

/-- A later heap differs in the value of one cell and in nothing else that is bound, owned or enclosed. -/
structure Revalued (h later : Heap) (slot : Slot) (value : Value) : Prop where
  cell : ∃ cell old, h.cellAt? slot = some cell ∧ cell.content = .plain old ∧
    later.cellAt? slot = some { cell with content := .plain value }
  others : ∀ other, other ≠ slot → later.cellAt? other = h.cellAt? other
  around : ∀ s, later.around? s = h.around? s

/-- What a write to a name does: nothing if it fails or is left to a setter, and otherwise it gives a cell a new
value. -/
inductive Writes (h : Heap) (name : String) (value : Value) : Except Fault Assigned → Prop where
  | refused (fault : Fault) (same : h.settle name (.error fault) = h) : Writes h name value (.error fault)
  | handed (p : Ref .property) (same : h.settle name (.ok (.computed p)) = h) : Writes h name value (.ok (.computed p))
  | stored (target : Ref .scope) (cell : Cell)
      (revalued : h.Revalued (h.settle name (.ok (.stored target cell))) (.scope target name) value) :
      Writes h name value (.ok (.stored target cell))

variable {h : Heap} {r s : Ref .scope} {name : String} {value : Value} {distance : Nat}

theorem around?_define (h : Heap) (r s : Ref .scope) (name : String) (cell : Cell) :
    (h.define r name cell).around? s = h.around? s := by
  rw [around?, scope_define]
  split <;> rfl

theorem around?_settle (h : Heap) (name : String) (result : Except Fault Assigned) (s : Ref .scope) :
    (h.settle name result).around? s = h.around? s := by
  unfold settle
  split
  · exact h.around?_define _ s name _
  · rfl
  · rfl

theorem Built.older (built : h.Built) : ∀ a b : Ref .scope, h.around? a = some b → b.index < a.index := by
  -- A new scope lies in one that was there before, or beside one that is itself younger than what is around it.
  have added {h : Heap} (older : ∀ a b : Ref .scope, h.around? a = some b → b.index < a.index) {new : Scope}
      (inside : ∀ outer, new.enclosing = some outer → outer.index < h.scopes.size) :
      ∀ a b : Ref .scope, (h.addScope new).2.around? a = some b → b.index < a.index := by
    intro a b leads
    rw [around?, scope_addScope] at leads
    split at leads
    · rename_i last
      rw [last]
      exact inside b leads
    · exact older a b leads
  induction built with
  | empty none =>
    intro a b leads
    have inside := lt_of_enclosing (Option.isSome_of_eq_some leads)
    simp [none] at inside
  | new _ ih => exact added ih fun _ impossible => by cases impossible
  | child _ there ih => exact added ih fun _ same => Option.some.inj same ▸ there
  | fork _ there ih => exact added ih fun outer leads => Nat.lt_trans (ih _ outer leads) there
  | define _ r name cell ih =>
    intro a b leads
    exact ih a b (by rwa [around?_define] at leads)
  | assign _ r name value ih | assignAt _ r distance name value ih =>
    intro a b leads
    exact ih a b (by rwa [around?_settle] at leads)

theorem Built.chain (built : h.Built) (r : Ref .scope) : Chain h.around? r (h.outward r) := by
  rw [outward_eq_follow]
  exact follow_chain built.older (Nat.lt_succ_self r.index)

section

variable (built : h.Built)

include built

theorem Nearest.binder? (nearest : h.Nearest r name distance s) : h.binder? r name = some s := by
  have reached (d : Nat) := ancestor?_of_chain (built.chain r) d
  have place := nearest.there
  rw [reached] at place
  obtain ⟨inside, same⟩ := List.getElem?_eq_some_iff.mp place
  refine List.find?_eq_some_iff_getElem.mpr ⟨nearest.binds, distance, inside, same, fun d before => ?_⟩
  have absent := nearest.nearer d before _ ((reached d).trans (List.getElem?_eq_getElem (Nat.lt_trans before inside)))
  rw [here?] at absent
  simp [NameMap.contains, absent]

theorem binder?_none (unbound : ∀ d s, h.ancestor? d r = some s → h.here? s name = none) :
    h.binder? r name = none := by
  refine List.find?_eq_none.mpr fun s member => ?_
  obtain ⟨d, inside, same⟩ := List.mem_iff_getElem.mp member
  have there := (ancestor?_of_chain (built.chain r) d).trans (List.getElem?_eq_getElem inside)
  have absent := unbound d s (same ▸ there)
  rw [here?] at absent
  simp [NameMap.contains, absent]

end

theorem assignHere_writes (h : Heap) (s : Ref .scope) (name : String) (value : Value) :
    h.Writes name value (h.assignHere s name value) := by
  cases done : h.assignHere s name value with
  | error fault => exact .refused fault rfl
  | ok assigned =>
    obtain ⟨cell, found, ⟨written, rfl, wrote⟩ | ⟨p, rfl, -⟩⟩ := Evaluator.assignHere_cases done
    · obtain ⟨old, plain⟩ := writeCell_plain wrote
      obtain ⟨-, rfl, -⟩ := writeCell_stored wrote
      have there : h.cellAt? (.scope s name) = some cell := found
      exact .stored s _ ⟨⟨cell, old, there, plain, cellAt?_store_self there _⟩,
        fun _ different => cellAt?_store_of_ne different _, h.around?_settle name _⟩
    · exact .handed p rfl

theorem assign_writes (h : Heap) (r : Ref .scope) (name : String) (value : Value) :
    h.Writes name value (h.assign r name value) := by
  unfold assign
  split
  · exact h.assignHere_writes _ name value
  · exact .refused _ rfl

theorem assignAt_writes (h : Heap) (r : Ref .scope) (distance : Nat) (name : String) (value : Value) :
    h.Writes name value (h.assignAt r distance name value) := by
  unfold assignAt
  split
  · exact h.assignHere_writes _ name value
  · exact .refused _ rfl

end Heap

/-- Wherever scopes have been made and written to, a name that is bound somewhere outward is read and written at the
distance of the nearest scope that binds it as by walking outward, with the same result and the same heap
afterwards; a name that is bound nowhere outward is undefined for both walks. A write in either way, at whatever
distance, does nothing if it fails, and otherwise changes the value of one cell and no other cell, in a scope
beside or in a copy no more than anywhere else. -/
theorem access_at_distance {h : Heap} (built : h.Built) (r : Ref .scope) (name : String) (value : Value) :
    (∀ distance s, h.Nearest r name distance s →
      (∃ cell, h.here? s name = some cell ∧ h.lookup r name = .ok cell ∧ h.lookupAt r distance name = .ok cell) ∧
        h.assignAt r distance name value = h.assign r name value ∧
          h.settle name (h.assignAt r distance name value) = h.settle name (h.assign r name value)) ∧
      ((∀ distance s, h.ancestor? distance r = some s → h.here? s name = none) →
        h.lookup r name = .error (.undefinedVariable name) ∧
          h.assign r name value = .error (.undefinedVariable name)) ∧
        h.Writes name value (h.assign r name value) ∧
          ∀ distance, h.Writes name value (h.assignAt r distance name value) := by
  refine ⟨fun distance s nearest => ?_, fun unbound => ?_, h.assign_writes r name value, fun distance =>
    h.assignAt_writes r distance name value⟩
  · have walked := nearest.binder? built
    obtain ⟨cell, found⟩ := Option.isSome_iff_exists.mp nearest.binds
    have same : h.assignAt r distance name value = h.assign r name value := by
      rw [Heap.assignAt, Heap.assign, nearest.there, walked]
    refine ⟨⟨cell, found, ?_, ?_⟩, same, congrArg _ same⟩
    · simp [Heap.lookup, walked, found]
    · simp [Heap.lookupAt, nearest.there, found]
  · have lost := Heap.binder?_none built unbound
    exact ⟨by simp [Heap.lookup, lost], by simp [Heap.assign, lost]⟩

/-- A number in the outermost scope, a scope inside, a copy of that one, and a scope inside the copy. -/
def copiedScopes : Heap :=
  let outermost := (Heap.addScope {} {}).2.define ⟨0⟩ "x" { content := .plain (.num 1), declared := some .number }
  ((outermost.child ⟨0⟩).2.fork ⟨1⟩).2.child ⟨2⟩ |>.2

theorem copiedScopes_built : copiedScopes.Built :=
  .child (.fork (.child (.define (.new (.empty rfl)) _ _ _) (by decide)) (by decide)) (by decide)

theorem copiedScopes_nearest : copiedScopes.Nearest ⟨3⟩ "x" 2 ⟨0⟩ where
  there := rfl
  binds := rfl
  nearer d before s there := by
    match d with
    | 0 | 1 =>
      cases there
      rfl

/-- The number is two scopes out, and it is read and written there. -/
theorem access_at_distance_copied :
    copiedScopes.Built ∧ copiedScopes.Nearest ⟨3⟩ "x" 2 ⟨0⟩ ∧
      copiedScopes.lookupAt ⟨3⟩ 2 "x" = copiedScopes.lookup ⟨3⟩ "x" ∧
        copiedScopes.assignAt ⟨3⟩ 2 "x" (.num 2) = copiedScopes.assign ⟨3⟩ "x" (.num 2) ∧
          copiedScopes.Writes "x" (.num 2) (copiedScopes.assignAt ⟨3⟩ 2 "x" (.num 2)) ∧
            copiedScopes.lookup ⟨3⟩ "y" = .error (.undefinedVariable "y") := by
  obtain ⟨bound, -, -, writes⟩ := access_at_distance copiedScopes_built ⟨3⟩ "x" (.num 2)
  obtain ⟨-, unbound, -⟩ := access_at_distance copiedScopes_built ⟨3⟩ "y" .nil
  obtain ⟨⟨cell, -, walked, direct⟩, same, -⟩ := bound 2 ⟨0⟩ copiedScopes_nearest
  refine ⟨copiedScopes_built, copiedScopes_nearest, direct.trans walked.symm, same, writes 2, (unbound ?_).1⟩
  intro distance s there
  match distance with
  | 0 | 1 | 2 =>
    cases there
    rfl
  | distance + 3 => cases there

end Treewalk
