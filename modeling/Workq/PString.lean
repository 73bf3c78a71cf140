import Mathlib.Data.List.TakeWhile
import Workq.Core.Run

/-!
# Strings

A `PString` owns a `GString`, here the `len` bytes that this holds. Copies and assignments go
through `g_string_assign`, which reads a C string and so stops at the first NUL, while
appending and comparing go by length. The two ways agree on every string that a program
builds unless one of its strings gets a NUL, which only the constructor with a size can put
there.
-/

namespace Workq.PString

open Workq.Core

/-- The bytes of a `GString`, without its terminator. -/
abbrev GString := List UInt8

/-- What is read through a pointer to a C string. -/
def cString (bytes : List UInt8) : List UInt8 := bytes.takeWhile (· ≠ 0)

/-- `g_string_new`, with NULL for no text. -/
def gStringNew : Option (List UInt8) → GString
  | none => []
  | some init => cString init

/-- `g_string_new_len`: a negative length stands for a C string. -/
def gStringNewLen (init : List UInt8) (len : Int) : GString :=
  if len < 0 then cString init else init.take len.toNat

/-- `g_string_assign`. -/
def gStringAssign (_ : GString) (rval : List UInt8) : GString := cString rval

/-- `g_string_append_len`. -/
def gStringAppendLen (string : GString) (val : List UInt8) (len : Nat) : GString :=
  string ++ val.take len

/-- `g_string_equal`. -/
def gStringEqual (v v2 : GString) : Bool := v = v2

/-- `PString::operator=`. -/
def assign (s str : GString) : GString := gStringAssign s str

/-- The copy constructor: an assignment to an empty string. -/
def copy (str : GString) : GString := assign [] str

/-- `PString::operator+=`. -/
def append (s str : GString) : GString := gStringAppendLen s str str.length

/-- `operator+`; `elided` says whether the compiler leaves out the copies of the local that
is returned. -/
def plus (elided : Bool) (str1 str2 : GString) : GString :=
  let s := append (copy str1) str2
  if elided then s else copy s

/-- `operator==` of two strings. -/
def equal (str1 str2 : GString) : Bool := gStringEqual str1 str2

/-- The operations of a program on its strings. -/
structure Operations where
  copy : GString → GString
  assign : GString → GString → GString
  append : GString → GString → GString
  plus : GString → GString → GString

/-- The operations of the code. -/
def operations (elided : Bool) : Operations := ⟨copy, assign, append, plus elided⟩

/-- What the operations are meant to do. -/
def meant : Operations := ⟨id, fun _ b => b, (· ++ ·), (· ++ ·)⟩

/-- The statements of a program, by the numbers of its strings. -/
inductive Stmt where
  /-- `PString s;` -/
  | new
  /-- `PString s(str);` -/
  | newC (str : Option (List UInt8))
  /-- `PString s(str, size);` -/
  | newLen (str : List UInt8) (size : Int)
  /-- `PString s(a);` -/
  | copy (a : Nat)
  /-- `PString s = a + b;` -/
  | plus (a b : Nat)
  /-- `a = b;` -/
  | assign (a b : Nat)
  /-- `a += b;` -/
  | append (a b : Nat)
  deriving DecidableEq, Repr

/-- One statement, if the strings that it names exist. `g_string_assign` leaves a string that
is assigned to itself alone. -/
def step (ops : Operations) (s : List GString) : Stmt → Option (List GString)
  | .new => some (s ++ [gStringNew (some [])])
  | .newC str => some (s ++ [gStringNew str])
  | .newLen str size => some (s ++ [gStringNewLen str size])
  | .copy a => s[a]?.map fun x => s ++ [ops.copy x]
  | .plus a b => s[a]?.bind fun x => s[b]?.map fun y => s ++ [ops.plus x y]
  | .assign a b => s[a]?.bind fun x => s[b]?.map fun y =>
      if a = b then s else s.set a (ops.assign x y)
  | .append a b => s[a]?.bind fun x => s[b]?.map fun y => s.set a (ops.append x y)

/-- No constructor with a size takes a NUL. -/
def Stmt.Clean : Stmt → Prop
  | .newLen str size => 0 ∉ gStringNewLen str size
  | .new | .newC _ | .copy _ | .plus _ _ | .assign _ _ | .append _ _ => True

/-- The laws of byte strings, for some strings. -/
structure Faithful (elided : Bool) (s : List GString) : Prop where
  copy_eq : ∀ a ∈ s, copy a = a
  assign_eq : ∀ a ∈ s, ∀ b ∈ s, assign a b = b
  append_eq : ∀ a ∈ s, ∀ b ∈ s, append a b = a ++ b
  plus_eq : ∀ a ∈ s, ∀ b ∈ s, plus elided a b = a ++ b
  plus_assoc : ∀ a ∈ s, ∀ b ∈ s, ∀ c ∈ s,
    plus elided (plus elided a b) c = plus elided a (plus elided b c)
  plus_empty : ∀ a ∈ s, plus elided a (gStringNew (some [])) = a ∧
    plus elided (gStringNew (some [])) a = a
  equal_iff : ∀ a ∈ s, ∀ b ∈ s, equal a b = true ↔ a = b

theorem cString_eq_self_iff {a : List UInt8} : cString a = a ↔ 0 ∉ a := by
  rw [cString, List.takeWhile_eq_self_iff]
  simp only [ne_eq, decide_eq_true_eq]
  constructor
  · exact fun h hmem => h 0 hmem rfl
  · exact fun h b hb hzero => h (hzero ▸ hb)

theorem zero_notMem_cString (a : List UInt8) : 0 ∉ cString a := by
  rw [← cString_eq_self_iff]
  exact List.takeWhile_idem ..

theorem append_eq (a b : GString) : append a b = a ++ b := by
  rw [append, gStringAppendLen, List.take_length]

theorem copy_of_notMem {a : GString} (h : 0 ∉ a) : copy a = a := cString_eq_self_iff.mpr h

theorem plus_of_notMem (elided : Bool) {a b : GString} (ha : 0 ∉ a) (hb : 0 ∉ b) :
    plus elided a b = a ++ b := by
  have hab : 0 ∉ a ++ b := by simp [ha, hb]
  simp only [plus, append_eq, copy_of_notMem ha, copy_of_notMem hab, ite_self]

/-- The invariant of a program whose statements are clean. -/
def NoNul (s : List GString) : Prop := ∀ a ∈ s, 0 ∉ a

/-- Strings without NUL satisfy the laws. -/
theorem NoNul.faithful (elided : Bool) {s : List GString} (h : NoNul s) : Faithful elided s where
  copy_eq a ha := copy_of_notMem (h a ha)
  assign_eq a _ b hb := cString_eq_self_iff.mpr (h b hb)
  append_eq a _ b _ := append_eq a b
  plus_eq a ha b hb := plus_of_notMem elided (h a ha) (h b hb)
  plus_assoc a ha b hb c hc := by
    have hab : 0 ∉ a ++ b := by simp [h a ha, h b hb]
    have hbc : 0 ∉ b ++ c := by simp [h b hb, h c hc]
    rw [plus_of_notMem elided (h a ha) (h b hb), plus_of_notMem elided (h b hb) (h c hc),
      plus_of_notMem elided hab (h c hc), plus_of_notMem elided (h a ha) hbc, List.append_assoc]
  plus_empty a ha := by
    have hempty : (0 : UInt8) ∉ gStringNew (some []) := List.not_mem_nil
    rw [plus_of_notMem elided (h a ha) hempty, plus_of_notMem elided hempty (h a ha)]
    exact ⟨List.append_nil a, List.nil_append a⟩
  equal_iff a _ b _ := decide_eq_true_iff

theorem NoNul.get {s : List GString} (h : NoNul s) {i : Nat} {a : GString}
    (hi : s[i]? = some a) : 0 ∉ a :=
  h a (List.mem_of_getElem? hi)

/-- On strings without NUL a statement does what it is meant to do. -/
theorem NoNul.step_eq (elided : Bool) {s : List GString} (h : NoNul s) (e : Stmt) :
    step (operations elided) s e = step meant s e := by
  cases e with
  | new => rfl
  | newC str => rfl
  | newLen str size => rfl
  | copy a =>
    refine Option.map_congr ?_
    intro x hx
    rw [show (operations elided).copy x = x from copy_of_notMem (h.get hx)]
    rfl
  | plus a b =>
    refine Option.bind_congr fun x hx => Option.map_congr fun y hy => ?_
    rw [show (operations elided).plus x y = x ++ y from
      plus_of_notMem elided (h.get hx) (h.get hy)]
    rfl
  | assign a b =>
    refine Option.bind_congr fun x _ => Option.map_congr fun y hy => ?_
    rw [show (operations elided).assign x y = y from cString_eq_self_iff.mpr (h.get hy)]
    rfl
  | append a b =>
    refine Option.bind_congr fun x _ => Option.map_congr fun y _ => ?_
    rw [show (operations elided).append x y = x ++ y from append_eq x y]
    rfl

theorem NoNul.concat {s : List GString} (h : NoNul s) {a : GString} (ha : 0 ∉ a) :
    NoNul (s ++ [a]) := by
  intro b hb
  rcases List.mem_append.mp hb with hb | hb
  · exact h b hb
  · rw [List.mem_singleton.mp hb]
    exact ha

theorem NoNul.set {s : List GString} (h : NoNul s) {a : GString} (ha : 0 ∉ a) (i : Nat) :
    NoNul (s.set i a) := by
  intro b hb
  rcases List.mem_or_eq_of_mem_set hb with hb | rfl
  · exact h b hb
  · exact ha

/-- A clean statement brings no NUL in. -/
theorem NoNul.step_meant {s t : List GString} (h : NoNul s) {e : Stmt} (he : e.Clean)
    (ht : step meant s e = some t) : NoNul t := by
  cases e with
  | new =>
    obtain rfl := Option.some.inj ht
    exact h.concat List.not_mem_nil
  | newC str =>
    obtain rfl := Option.some.inj ht
    cases str with
    | none => exact h.concat List.not_mem_nil
    | some str => exact h.concat (zero_notMem_cString str)
  | newLen str size =>
    obtain rfl := Option.some.inj ht
    exact h.concat he
  | copy a =>
    obtain ⟨x, hx, rfl⟩ := Option.map_eq_some_iff.mp ht
    exact h.concat (h.get hx)
  | plus a b =>
    obtain ⟨x, hx, hmap⟩ := Option.bind_eq_some_iff.mp ht
    obtain ⟨y, hy, rfl⟩ := Option.map_eq_some_iff.mp hmap
    refine h.concat ?_
    simp [meant, h.get hx, h.get hy]
  | assign a b =>
    obtain ⟨x, hx, hmap⟩ := Option.bind_eq_some_iff.mp ht
    obtain ⟨y, hy, rfl⟩ := Option.map_eq_some_iff.mp hmap
    split
    · exact h
    · exact h.set (h.get hy) a
  | append a b =>
    obtain ⟨x, hx, hmap⟩ := Option.bind_eq_some_iff.mp ht
    obtain ⟨y, hy, rfl⟩ := Option.map_eq_some_iff.mp hmap
    refine h.set ?_ a
    simp [meant, h.get hx, h.get hy]

/-- A string with a NUL is not copied whole. -/
theorem Faithful.noNul {elided : Bool} {s : List GString} (h : Faithful elided s) : NoNul s :=
  fun a ha => cString_eq_self_iff.mp (h.copy_eq a ha)

/-- A run of clean statements is the run that is meant. -/
theorem exec_eq_of_clean (elided : Bool) {s t : List GString} (h : NoNul s) {es : List Stmt}
    (hclean : AllSteps (step (operations elided)) (fun _ e => e.Clean) s es)
    (ht : exec (step (operations elided)) s es = some t) :
    exec (step meant) s es = some t := by
  induction es generalizing s with
  | nil => exact ht
  | cons e es ih =>
    obtain ⟨m, hm, hrest⟩ := exec_cons_eq_some.mp ht
    have hmeant : step meant s e = some m := (h.step_eq elided e).symm.trans hm
    exact exec_cons_eq_some.mpr
      ⟨m, hmeant, ih (h.step_meant hclean.1 hmeant) (hclean.2 m hm) hrest⟩

/-- In every state that a program reaches, its strings satisfy the laws and are the ones that
are meant, exactly if no constructor with a size takes a NUL. -/
theorem pstring_faithful_iff (elided : Bool) (es : List Stmt) :
    (∀ fs, fs <+: es → ∀ s, exec (step (operations elided)) [] fs = some s →
        Faithful elided s ∧ exec (step meant) [] fs = some s) ↔
      AllSteps (step (operations elided)) (fun _ e => e.Clean) [] es := by
  have hempty : NoNul [] := fun a ha => absurd ha List.not_mem_nil
  have hkeep : ∀ s e t, NoNul s → e.Clean → step (operations elided) s e = some t → NoNul t := by
    intro s e t hs he ht
    exact hs.step_meant he ((hs.step_eq elided e).symm.trans ht)
  have hbreak : ∀ s e, NoNul s → ¬ e.Clean →
      ∃ t, step (operations elided) s e = some t ∧ ¬ Faithful elided t := by
    intro s e _ he
    cases e with
    | newLen str size =>
      refine ⟨_, rfl, fun hfaithful => he ?_⟩
      exact hfaithful.noNul _ (by simp)
    | new => exact absurd trivial he
    | newC str => exact absurd trivial he
    | copy a => exact absurd trivial he
    | plus a b => exact absurd trivial he
    | assign a b => exact absurd trivial he
    | append a b => exact absurd trivial he
  have hreached := forall_reached_iff_allSteps (P := Faithful elided)
    (fun s hs => hs.faithful elided) hkeep hbreak hempty
  constructor
  · intro h
    exact (hreached es).mp fun fs hfs s hs => (h fs hfs s hs).1
  · intro h fs hfs s hs
    have hall := (hreached es).mpr h
    have hclean := (hreached fs).mp fun gs hgs => hall gs (hgs.trans hfs)
    exact ⟨hall fs hfs s hs, exec_eq_of_clean elided hempty hclean hs⟩

/-- The copy of a string of three bytes with a NUL in the middle has one byte. -/
theorem pstring_copy_stops_at_nul :
    exec (step (operations true)) [] [.newLen [0x61, 0, 0x62] 3, .copy 0] =
        some [[0x61, 0, 0x62], [0x61]] ∧
      ¬ Faithful true [[0x61, 0, 0x62], [0x61]] := by
  refine ⟨by decide, ?_⟩
  intro h
  exact h.noNul _ List.mem_cons_self (by decide)

end Workq.PString
