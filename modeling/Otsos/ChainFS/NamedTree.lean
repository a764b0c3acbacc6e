import Mathlib.Data.Set.Insert
import Otsos.ChainFS.Runs

/-!
# A tree of names

What the file system is for: names in directories stand for contents or for
other directories, and a directory is a number.  A call on a name of the
current directory that returns 0 has its effect on this name, and one that
returns another code has none, but for a file that was to be replaced, whose
contents may be lost.  If the power fails during a call it has had its effect
or not, and again the file that was to be replaced or deleted may be lost.
-/

namespace Otsos

inductive Node where
  | file (bytes : List UInt8)
  | directory (idx : ℕ)

/-- A directory and a name in it. -/
abbrev TreeKey := ℕ × List UInt8

/-- Nothing is promised of the names that are `lost`. -/
structure NamedTree where
  current : ℕ
  node : TreeKey → Option Node
  lost : Set TreeKey

inductive FsEvent where
  | call (call : FsCall) (code : ℤ)
  | powerLoss (call : FsCall)

namespace NamedTree

def key (t : NamedTree) (name : CString) : TreeKey := (t.current, name.chars)

def put (t : NamedTree) (name : CString) (n : Option Node) : NamedTree :=
  { t with node := Function.update t.node (t.key name) n }

def enter (t : NamedTree) (idx : ℕ) : NamedTree := { t with current := idx }

/-- What a call may lose. -/
def endangered (t : NamedTree) : FsCall → Set TreeKey
  | .writeFile name _ _ | .deleteFile name =>
      {key | key = t.key name ∧ t.node key ≠ none}
  | _ => ∅

def risk (t : NamedTree) (call : FsCall) : NamedTree :=
  { t with lost := t.lost ∪ t.endangered call }

/-- The number is no directory's, and nothing is below it. -/
structure Fresh (t : NamedTree) (idx : ℕ) : Prop where
  entered : idx ≠ t.current
  unnamed : ∀ key ∉ t.lost, t.node key ≠ some (.directory idx)
  empty : ∀ name, t.node (idx, name) = none
  intact : ∀ name, (idx, name) ∉ t.lost

/-- The effect of a call that returns 0. -/
inductive Succeeds (t : NamedTree) : FsCall → NamedTree → Prop
  | writeFile {name data size} : Succeeds t (.writeFile name data size)
      (t.put name (some (.file ((List.range size).map data))))
  | deleteFile {name} (present : t.node (t.key name) ≠ none) :
      Succeeds t (.deleteFile name) (t.put name none)
  | readFile {name buffer n} : Succeeds t (.readFile name buffer n) t
  | mkdir {name idx} (absent : t.node (t.key name) = none)
      (fresh : t.Fresh idx) :
      Succeeds t (.mkdir name) (t.put name (some (.directory idx)))
  | chdir {name idx} (present : t.node (t.key name) = some (.directory idx)) :
      Succeeds t (.chdir name) (t.enter idx)
  | listDir {path n} : Succeeds t (.listDir path n) t
  | init : Succeeds t .init (t.enter 0)

/-- When a call may return another code. -/
def Refuses (t : NamedTree) : FsCall → Prop
  | .deleteFile name => t.node (t.key name) = none
  | .chdir name => ∀ idx, t.node (t.key name) ≠ some (.directory idx)
  | .init => False
  | _ => True

inductive Step (t : NamedTree) : FsEvent → NamedTree → Prop
  | done {call t'} (succeeds : t.Succeeds call t') :
      Step t (.call call 0) t'
  | failed {call code} (nonzero : code ≠ 0) (refuses : t.Refuses call) :
      Step t (.call call code) (t.risk call)
  | undone {call} : Step t (.powerLoss call) ((t.risk call).enter 0)
  | finished {call t'} (succeeds : t.Succeeds call t')
      (safe : t.endangered call = ∅) : Step t (.powerLoss call) (t'.enter 0)

inductive Run (t₀ : NamedTree) : List FsEvent → NamedTree → Prop
  | start : Run t₀ [] t₀
  | step {hist event t t'} (before : Run t₀ hist t) (step : t.Step event t') :
      Run t₀ (hist ++ [event]) t'

variable {t t' t₀ : NamedTree} {call : FsCall} {code : ℤ}
  {hist : List FsEvent} {event : FsEvent}

@[simp] theorem put_self (t : NamedTree) (name : CString)
    (n : Option Node) : (t.put name n).node (t.key name) = n := by
  simp [put]

theorem put_other {name : CString} {key : TreeKey} {n : Option Node}
    (hne : key ≠ t.key name) : (t.put name n).node key = t.node key := by
  simp [put, hne]

theorem Succeeds.lost (h : t.Succeeds call t') : t'.lost = t.lost := by
  cases h <;> rfl

/-- What is lost after a call. -/
theorem Step.lost_call (h : t.Step (.call call code) t') :
    t'.lost = if code = 0 then t.lost else t.lost ∪ t.endangered call := by
  cases h with
  | done succeeds => rw [if_pos rfl, succeeds.lost]
  | failed nonzero refuses =>
      rw [if_neg nonzero]
      rfl

theorem Step.lost_powerLoss (h : t.Step (.powerLoss call) t') :
    t'.lost = t.lost ∪ t.endangered call := by
  cases h with
  | undone => rfl
  | finished succeeds safe =>
      rw [safe, Set.union_empty]
      exact succeeds.lost

theorem run_nil : t₀.Run [] t ↔ t = t₀ := by
  constructor
  · generalize hhist : ([] : List FsEvent) = hist
    rintro (- | ⟨before, step⟩)
    · rfl
    · simp at hhist
  · rintro rfl
    exact .start

theorem run_snoc :
    t₀.Run (hist ++ [event]) t' ↔ ∃ t, t₀.Run hist t ∧ t.Step event t' := by
  constructor
  · generalize hhist : hist ++ [event] = hist'
    rintro (- | ⟨before, step⟩)
    · simp at hhist
    · obtain ⟨rfl, hevent⟩ := List.append_inj' hhist rfl
      cases hevent
      exact ⟨_, before, step⟩
  · rintro ⟨t, before, step⟩
    exact before.step step

/-- The root is a directory under a name that no call can give. -/
def rootKey : TreeKey := (0xFFFFFFFF, [slash])

/-- After a format. -/
def formatted : NamedTree where
  current := 0
  node := Function.update (fun _ => none) rootKey (some (.directory 0))
  lost := ∅

theorem formatted_root : formatted.node rootKey = some (.directory 0) := by
  simp [formatted]

theorem formatted_other {key : TreeKey} (hne : key ≠ rootKey) :
    formatted.node key = none := by
  simp [formatted, hne]

end NamedTree

end Otsos
