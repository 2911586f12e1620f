import Treewalk.Proofs.World

/-!
Classes along their superclasses. A lookup asks the class itself and then its superclass; what it finds
stays as it is while the heap matures. A class that has passed the check against an interface implements the
interface from the moment on when it is in the heap.
-/

namespace Treewalk

theorem findSome?_map_congr {l : List α} {f g : α → Option β} (p : β → γ)
    (same : ∀ a ∈ l, (f a).map p = (g a).map p) : (l.findSome? f).map p = (l.findSome? g).map p := by
  induction l with
  | nil => rfl
  | cons first rest ih =>
    have here := same first (by simp)
    have others := ih fun a member => same a (by simp [member])
    cases found : f first <;> cases other : g first <;> simp_all

namespace Heap

variable {h h' : Heap} {c parent : Ref .cls} {name : String}

/-- More fuel than a class has older ones does not change its lineage. -/
theorem lineageFrom_eq (older : h.Ancestry) (inside : c.index < h.classes.size) {fuel : Nat}
    (enough : c.index < fuel) : h.lineageFrom fuel c = h.lineage c := by
  -- The superclass has a smaller index, which bounds both amounts of fuel from below.
  induction fuel using Nat.strongRecOn generalizing c with
  | ind fuel ih =>
    obtain ⟨fuel, rfl⟩ := Nat.exists_eq_succ_of_ne_zero (Nat.ne_of_gt (Nat.zero_lt_of_lt enough))
    unfold lineage lineageFrom
    cases found : (h.cls c).superclass with
    | none => rfl
    | some parent =>
      have before : parent.index < c.index := older c parent inside found
      have there : parent.index < h.classes.size := Nat.lt_trans before inside
      by_cases last : c.index = fuel
      · rw [last]
      · simp only
        rw [ih fuel (Nat.lt_succ_self fuel) there (by omega), ih c.index enough there before]

theorem lineage_cons (older : h.Ancestry) (inside : c.index < h.classes.size)
    (found : (h.cls c).superclass = some parent) : h.lineage c = c :: h.lineage parent := by
  have before : parent.index < c.index := older c parent inside found
  rw [← lineageFrom_eq older (Nat.lt_trans before inside) before]
  simp only [lineage, lineageFrom, found]

theorem lineage_root (found : (h.cls c).superclass = none) : h.lineage c = [c] := by
  simp only [lineage, lineageFrom, found]

theorem lineage_from (older : h.Ancestry) (inside : c.index < h.classes.size) {s : Ref .cls}
    {below above : List (Ref .cls)} (split : h.lineage c = below ++ s :: above) :
    h.lineage s = s :: above ∧ s.index < h.classes.size := by
  induction below generalizing c with
  | nil =>
    have first : c = s := by
      have heads := congrArg List.head? split
      simpa [lineage, lineageFrom] using heads
    subst first
    exact ⟨split, inside⟩
  | cons first below ih =>
    cases found : (h.cls c).superclass with
    | none => simp [lineage_root found] at split
    | some parent =>
      rw [lineage_cons older inside found, List.cons_append, List.cons.injEq] at split
      exact ih (Nat.lt_trans (older c parent inside found) inside) split.2

theorem findMethod?_eq (older : h.Ancestry) (inside : c.index < h.classes.size) :
    h.findMethod? c name = h.methodOf? (h.cls c) name := by
  unfold methodOf?
  cases found : (h.cls c).superclass with
  | none =>
    rw [findMethod?, lineage_root found]
    cases own : (h.cls c).methods.find? name <;> simp [own]
  | some parent =>
    rw [findMethod?, lineage_cons older inside found]
    cases own : (h.cls c).methods.find? name <;> simp [own, findMethod?]

theorem findField?_eq (older : h.Ancestry) (inside : c.index < h.classes.size) :
    h.findField? c name = h.fieldOf? (h.cls c) name := by
  unfold fieldOf?
  cases found : (h.cls c).superclass with
  | none =>
    rw [findField?, lineage_root found]
    cases own : (h.cls c).fields.find? name <;> simp [own]
  | some parent =>
    rw [findField?, lineage_cons older inside found]
    cases own : (h.cls c).fields.find? name <;> simp [own, findField?]

section

variable {may : Ref .scope → String → Prop} (linked : h.ClassesLinked) (inside : c.index < h.classes.size)

include linked inside

theorem lineage_stays (grows : h.Grows may h') : h'.lineage c = h.lineage c :=
  lineageFrom_stays linked grows _ inside

theorem findMethod?_stays (grows : h.Grows may h') : h'.findMethod? c name = h.findMethod? c name := by
  unfold findMethod?
  rw [lineage_stays linked inside grows]
  simpa only [Option.map_id, id] using findSome?_map_congr id fun ancestor member => by
    rw [(grows.classes ancestor (lineageFrom_inside linked _ inside member)).2.methods]

theorem findField?_stays (matures : h.Matures h') :
    (h'.findField? c name).map Cell.modifiers = (h.findField? c name).map Cell.modifiers := by
  unfold findField?
  rw [lineage_stays linked inside matures.grows]
  refine findSome?_map_congr Cell.modifiers fun ancestor member => ?_
  exact matures.fields ancestor name (lineageFrom_inside linked _ inside member)

end

/-- What a class that need not be in the heap yet has is as an interface asks for it. -/
structure Suits (h : Heap) (c : Class) (i : Interface) : Prop where
  methods : ∀ name required, i.methods.find? name = some required →
    ∃ f, h.methodOf? c name = some f ∧ h.Meets f required
  fields : ∀ name required, i.fields.find? name = some required →
    ∃ cell, h.fieldOf? c name = some cell ∧ cell.modifiers.signature = required.modifiers.signature

theorem checkMethod_ok {className : String} {found : Option (Ref .function)} {i : Interface}
    {required : Ref .function} (passes : h.checkMethod className found i name = .ok ())
    (asked : i.methods.find? name = some required) : ∃ f, found = some f ∧ h.Meets f required := by
  unfold checkMethod at passes
  cases found with
  | none => cases passes
  | some f =>
    rw [asked] at passes
    dsimp only at passes
    split at passes
    · cases passes
    · rename_i signature
      split at passes
      · cases passes
      · rename_i arity
        exact ⟨f, rfl, Decidable.not_not.mp signature, Decidable.not_not.mp arity⟩

theorem checkField_ok {className : String} {found : Option Cell} {i : Interface} {required : Cell}
    (passes : checkField className found i name = .ok ()) (asked : i.fields.find? name = some required) :
    ∃ cell, found = some cell ∧ cell.modifiers.signature = required.modifiers.signature := by
  unfold checkField at passes
  cases found with
  | none => cases passes
  | some cell =>
    rw [asked] at passes
    dsimp only at passes
    split at passes
    · cases passes
    · rename_i signature
      exact ⟨cell, rfl, Decidable.not_not.mp signature⟩

theorem forM_ok {l : List α} {f : α → Except Fault Unit} (passes : l.forM f = .ok ()) :
    ∀ a ∈ l, f a = .ok () := by
  induction l with
  | nil => simp
  | cons first rest ih =>
    rw [List.forM] at passes
    cases here : f first with
    | error fault => simp [here, bind, Except.bind] at passes
    | ok _ =>
      simp only [here, bind, Except.bind] at passes
      simpa [here] using ih passes

theorem mem_sortedNames {m : NameMap α} {value : α} (found : m.find? name = some value) :
    name ∈ m.sortedNames := by
  rw [NameMap.sortedNames, List.mem_mergeSort, NameMap.names, List.mem_map]
  exact ⟨_, NameMap.mem_of_find? found, rfl⟩

theorem suits_of_check {c : Class} {i : Interface} (passes : h.checkConformance c i = .ok ()) :
    h.Suits c i := by
  unfold checkConformance at passes
  cases first : i.methods.sortedNames.forM fun name => h.checkMethod c.name (h.methodOf? c name) i name with
  | error fault => simp [first, bind, Except.bind] at passes
  | ok _ =>
    simp only [first, bind, Except.bind] at passes
    exact ⟨fun name required asked => checkMethod_ok (forM_ok first name (mem_sortedNames asked)) asked,
      fun name required asked => checkField_ok (forM_ok passes name (mem_sortedNames asked)) asked⟩

theorem Meets.grows {may : Ref .scope → String → Prop} {f required : Ref .function} (meets : h.Meets f required)
    (grows : h.Grows may h') (inside : f.index < h.functions.size)
    (there : required.index < h.functions.size) : h'.Meets f required := by
  rw [Meets, (grows.functions f inside).2, (grows.functions required there).2]
  exact meets

end Heap

namespace World

variable {view : View} {w w' : World} {c : Ref .cls} {i : Ref .interface}

theorem Sound.found_inside (sound : w.Sound view) (inside : c.index < w.heap.classes.size) {name : String}
    {f : Ref .function} (found : w.heap.findMethod? c name = some f) : f.index < w.heap.functions.size := by
  obtain ⟨ancestor, member, own⟩ := List.exists_of_findSome?_eq_some found
  have known := sound.classes ancestor (Heap.lineageFrom_inside sound.linked _ inside member)
  exact (known.methods _ (NameMap.mem_of_find? own)).1.1

theorem Sound.required_inside (sound : w.Sound view) (listed : i.index < w.heap.interfaces.size)
    {name : String} {required : Ref .function}
    (asked : (w.heap.interface i).methods.find? name = some required) :
    required.index < w.heap.functions.size :=
  ((sound.interfaces i listed).methods _ (NameMap.mem_of_find? asked)).1

theorem Sound.implements_stays (sound : w.Sound view) (matures : w.heap.Matures w'.heap)
    (inside : c.index < w.heap.classes.size) (listed : i.index < w.heap.interfaces.size)
    (implements : w.heap.Implements c i) : w'.heap.Implements c i where
  methods name required asked := by
    rw [(matures.grows.interfaces i listed).2] at asked
    obtain ⟨f, found, meets⟩ := implements.methods name required asked
    refine ⟨f, by rw [Heap.findMethod?_stays sound.linked inside matures.grows, found], ?_⟩
    exact meets.grows matures.grows (sound.found_inside inside found) (sound.required_inside listed asked)
  fields name required asked := by
    rw [(matures.grows.interfaces i listed).2] at asked
    obtain ⟨cell, found, signature⟩ := implements.fields name required asked
    have same : (w'.heap.findField? c name).map Cell.modifiers = some cell.modifiers := by
      rw [Heap.findField?_stays sound.linked inside matures, found]
      rfl
    obtain ⟨later, there, modifiers⟩ := Option.map_eq_some_iff.mp same
    exact ⟨later, there, by rw [modifiers, signature]⟩

theorem Sound.implements_entered (sound : w.Sound view) (older : w'.heap.Ancestry)
    (matures : w.heap.Matures w'.heap) {cls : Class} (known : w.ClassKnown view { cls with fields := .empty })
    (there : c.index < w'.heap.classes.size) (superclass : (w'.heap.cls c).superclass = cls.superclass)
    (methods : (w'.heap.cls c).methods = cls.methods)
    (fields : ∀ name, w'.heap.fieldModifiers? c name = (cls.fields.find? name).map Cell.modifiers)
    (listed : i.index < w.heap.interfaces.size) (suits : w.heap.Suits cls (w.heap.interface i)) :
    w'.heap.Implements c i where
  methods name required asked := by
    rw [(matures.grows.interfaces i listed).2] at asked
    obtain ⟨f, found, meets⟩ := suits.methods name required asked
    have inherited : cls.superclass.bind (w'.heap.findMethod? · name) =
        cls.superclass.bind (w.heap.findMethod? · name) := by
      cases parent : cls.superclass with
      | none => rfl
      | some parent => exact Heap.findMethod?_stays sound.linked (known.superclass _ parent) matures.grows
    have inside : f.index < w.heap.functions.size := by
      rcases Option.or_eq_some_iff.mp found with own | ⟨-, above⟩
      · exact (known.methods _ (NameMap.mem_of_find? own)).1.1
      · obtain ⟨parent, member, above⟩ := Option.bind_eq_some_iff.mp above
        exact sound.found_inside (known.superclass parent member) above
    refine ⟨f, ?_, meets.grows matures.grows inside (sound.required_inside listed asked)⟩
    rw [Heap.findMethod?_eq older there, Heap.methodOf?, superclass, methods, inherited]
    exact found
  fields name required asked := by
    rw [(matures.grows.interfaces i listed).2] at asked
    obtain ⟨cell, found, signature⟩ := suits.fields name required asked
    have inherited : (cls.superclass.bind (w'.heap.findField? · name)).map Cell.modifiers =
        (cls.superclass.bind (w.heap.findField? · name)).map Cell.modifiers := by
      cases parent : cls.superclass with
      | none => rfl
      | some parent => exact Heap.findField?_stays sound.linked (known.superclass _ parent) matures
    have same : (w'.heap.findField? c name).map Cell.modifiers = some cell.modifiers := by
      have own := fields name
      rw [Heap.fieldModifiers?] at own
      rw [Heap.findField?_eq older there, Heap.fieldOf?, superclass, Option.map_or, own, inherited,
        ← Option.map_or]
      exact congrArg _ found
    obtain ⟨later, found, modifiers⟩ := Option.map_eq_some_iff.mp same
    exact ⟨later, found, by rw [modifiers, signature]⟩

end World

end Treewalk
