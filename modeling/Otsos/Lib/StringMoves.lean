import Mathlib.Data.List.Basic
import Otsos.Lib.X86

/-!
# The string instructions as transfers of words

Going forward, `rep insw` leaves in memory the words that the device gives one
after the other, and `rep outsw` hands the device the words of the memory.
-/

namespace Lib.X86

variable {δ : Type*} {bus : Bus δ} {m : Machine δ} {a b : BitVec 64} {n : ℕ}

/-- The next `n` words of a device. -/
def Bus.sendWords (bus : Bus δ) (port : BitVec 16) :
    ℕ → δ → List (BitVec 16) × δ
  | 0, d => ([], d)
  | n + 1, d =>
      let (w, d) := bus.inWord d port
      let (ws, d) := bus.sendWords port n d
      (w :: ws, d)

theorem Bus.sendWords_succ (bus : Bus δ) (port : BitVec 16) (d : δ) :
    bus.sendWords port (n + 1) d =
      ((bus.inWord d port).1 ::
          (bus.sendWords port n (bus.inWord d port).2).1,
        (bus.sendWords port n (bus.inWord d port).2).2) := rfl

def Bus.receiveWords (bus : Bus δ) (port : BitVec 16) (d : δ)
    (ws : List (BitVec 16)) : δ :=
  ws.foldl (fun d w => bus.outWord d port w) d

variable {mem : BitVec 64 → BitVec 8}

/-- The word at `a`. -/
def word (mem : BitVec 64 → BitVec 8) (a : BitVec 64) : BitVec 16 :=
  (loadBytes mem a 2).setWidth 16

/-- The `n` words from `a` on. -/
def words (mem : BitVec 64 → BitVec 8) (a : BitVec 64) :
    ℕ → List (BitVec 16)
  | 0 => []
  | n + 1 => word mem a :: words mem (a + 2) n

@[simp] theorem words_length : (words mem a n).length = n := by
  induction n generalizing a with
  | zero => rfl
  | succ n ih => rw [words, List.length_cons, ih]

theorem word_eq : word mem a = (mem (a + 1) ++ mem a : BitVec (8 + 8)) := by
  simp only [word, loadBytes]
  ext i hi
  rw [BitVec.getElem_append]
  by_cases hlow : i < 8
  · simp [hlow]
  · have hhigh : i - 8 < 8 := by omega
    have hnone : (mem a).getLsbD i = false :=
      BitVec.getLsbD_of_ge _ _ (by omega)
    simp [hlow, hhigh, hnone]

namespace Machine

theorem storeWord_low (w : BitVec 16) :
    (m.storeBytes a 2 (w.setWidth 64)).mem a = w.setWidth 8 := by
  simp [storeBytes, BitVec.setWidth_setWidth_of_le]

theorem storeWord_high (w : BitVec 16) :
    (m.storeBytes a 2 (w.setWidth 64)).mem (a + 1) =
      (w.setWidth 64 >>> 8).setWidth 8 := by
  simp [storeBytes]

theorem storeWord_other (w : BitVec 16) (h : b ≠ a) (h' : b ≠ a + 1) :
    (m.storeBytes a 2 (w.setWidth 64)).mem b = m.mem b := by
  simp only [storeBytes, Function.update_of_ne h', Function.update_of_ne h]

theorem storeWord_word (w : BitVec 16) :
    word (m.storeBytes a 2 (w.setWidth 64)).mem a = w := by
  rw [word_eq, storeWord_low, storeWord_high]
  ext i hi
  rw [BitVec.getElem_append]
  by_cases hlow : i < 8
  · simp [hlow, BitVec.getLsbD_eq_getElem hi]
  · have hshift : 8 + (i - 8) = i := by omega
    have hwide : i < 64 := by omega
    simp [hlow, hshift, hwide, BitVec.getLsbD_eq_getElem hi]

/-! ## One iteration -/

theorem insOnce_device :
    (m.insOnce bus).device = (bus.inWord m.device m.port).2 := rfl

theorem insOnce_mem :
    (m.insOnce bus).mem =
      (m.storeBytes (m.regs .rdi) 2
        ((bus.inWord m.device m.port).1.setWidth 64)).mem := rfl

theorem insOnce_rdi (hforward : m.backward = false) :
    (m.insOnce bus).regs .rdi = m.regs .rdi + 2 := by
  have hkept : (m.insOnce bus).regs .rdi = m.regs .rdi + m.stride := rfl
  rw [hkept, stride, hforward]
  rfl

theorem insOnce_backward : (m.insOnce bus).backward = m.backward := rfl

theorem insOnce_port : (m.insOnce bus).port = m.port := rfl

theorem outsOnce_device :
    (m.outsOnce bus).device =
      bus.outWord m.device m.port (word m.mem (m.regs .rsi)) := rfl

theorem outsOnce_mem : (m.outsOnce bus).mem = m.mem := rfl

theorem outsOnce_rsi (hforward : m.backward = false) :
    (m.outsOnce bus).regs .rsi = m.regs .rsi + 2 := by
  have hkept : (m.outsOnce bus).regs .rsi = m.regs .rsi + m.stride := rfl
  rw [hkept, stride, hforward]
  rfl

theorem outsOnce_backward : (m.outsOnce bus).backward = m.backward := rfl

theorem outsOnce_port : (m.outsOnce bus).port = m.port := rfl

/-! ## Whole transfers -/

theorem repeated_insOnce_device :
    (repeated (insOnce bus) n m).device =
      (bus.sendWords m.port n m.device).2 := by
  induction n generalizing m with
  | zero => rfl
  | succ n ih => rw [repeated, ih, insOnce_port, insOnce_device]; rfl

theorem repeated_insOnce_outside (hforward : m.backward = false)
    (hb : 2 * n ≤ (b - m.regs .rdi).toNat) :
    (repeated (insOnce bus) n m).mem b = m.mem b := by
  induction n generalizing m with
  | zero => rfl
  | succ n ih =>
      have hlow : b ≠ m.regs .rdi := by bv_omega
      have hhigh : b ≠ m.regs .rdi + 1 := by bv_omega
      rw [repeated, ih, insOnce_mem, storeWord_other _ hlow hhigh]
      · rw [insOnce_backward, hforward]
      · rw [insOnce_rdi hforward]
        bv_omega

/-- A transfer into memory leaves there what the device sent. -/
theorem repeated_insOnce_words (hforward : m.backward = false)
    (hn : 2 * n ≤ 2 ^ 64) :
    words (repeated (insOnce bus) n m).mem (m.regs .rdi) n =
      (bus.sendWords m.port n m.device).1 := by
  induction n generalizing m with
  | zero => rfl
  | succ n ih =>
      have hforward' : (m.insOnce bus).backward = false := hforward
      have hrest := @ih (m.insOnce bus) hforward' (by omega)
      rw [insOnce_rdi hforward, insOnce_port, insOnce_device] at hrest
      have hlow : (repeated (insOnce bus) n (m.insOnce bus)).mem
          (m.regs .rdi) = (m.insOnce bus).mem (m.regs .rdi) := by
        apply repeated_insOnce_outside hforward'
        rw [insOnce_rdi hforward]
        bv_omega
      have hhigh : (repeated (insOnce bus) n (m.insOnce bus)).mem
          (m.regs .rdi + 1) = (m.insOnce bus).mem (m.regs .rdi + 1) := by
        apply repeated_insOnce_outside hforward'
        rw [insOnce_rdi hforward]
        bv_omega
      have hfirst : word (repeated (insOnce bus) n (m.insOnce bus)).mem
          (m.regs .rdi) = (bus.inWord m.device m.port).1 := by
        rw [word_eq, hlow, hhigh, insOnce_mem, ← word_eq, storeWord_word]
      rw [repeated, words, hfirst, hrest]
      rfl

/-- A transfer out of memory gives the device what the memory holds. -/
theorem repeated_outsOnce_device (hforward : m.backward = false) :
    (repeated (outsOnce bus) n m).device =
      bus.receiveWords m.port m.device (words m.mem (m.regs .rsi) n) := by
  induction n generalizing m with
  | zero => rfl
  | succ n ih =>
      rw [repeated, ih (outsOnce_backward.trans hforward), outsOnce_port,
        outsOnce_device, outsOnce_rsi hforward, outsOnce_mem]
      rfl

end Machine

end Lib.X86
