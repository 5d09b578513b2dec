import Mathlib.Tactic.Ring
import PerfProf.Data.Tally
import PerfProf.Hrcount.Sample

namespace PerfProf.Hrcount

open Data

/-! How much each counter grew at each position since everything was dropped,
and how many rounds were printed. -/

structure Entry where
  ins : Nat
  id : Nat
  pos : Nat
  count : BitVec 64
  deriving DecidableEq, Repr

structure Account where
  values : Nat → Nat → BitVec 64
  before : List Entry
  since : List Entry
  rounds : Nat

namespace Account

def start : Account := ⟨fun _ _ => 0#64, [], [], 0⟩

def entries (account : Account) : List Entry := account.before ++ account.since

def next (account : Account) : Record → Account
  | .read ins id pos value =>
    { account with
      values := Function.update account.values ins (Function.update (account.values ins) id value)
      since := account.since ++ [⟨ins, id, pos, value - account.values ins id⟩] }
  | .printed true _ => { account with rounds := account.rounds + 1 }
  | .printed false _ =>
    { account with
      before := account.entries, since := [], rounds := account.rounds + 1 }
  | .reset => { account with before := [], since := [], rounds := 0 }

def after (account : Account) (records : List Record) : Account :=
  records.foldl next account

def Along (holds : Account → Record → Prop) : Account → List Record → Prop
  | _, [] => True
  | account, record :: rest => holds account record ∧ Along holds (account.next record) rest

theorem along_append (holds : Account → Record → Prop) (account : Account)
    (first second : List Record) :
    Along holds account (first ++ second) ↔
      Along holds account first ∧ Along holds (account.after first) second := by
  induction first generalizing account with
  | nil => simp [Along, after]
  | cons record rest ih =>
    rw [List.cons_append, Along, Along, ih, and_assoc]
    rfl

theorem after_append (account : Account) (first second : List Record) :
    account.after (first ++ second) = (account.after first).after second :=
  List.foldl_append

end Account

section Prints

variable (config : Config)

def Config.entryKey (entry : Entry) : ℕ ×ₗ ℕ :=
  toLex (config.nodeIns entry.ins, entry.id)

def Config.ofKey (key : ℕ ×ₗ ℕ) (entry : Entry) : Bool :=
  decide (config.entryKey entry = key)

def Config.inRound (rounds : Nat) (entry : Entry) : Bool :=
  decide (rounds * config.histSize ≤ entry.pos ∧
    entry.pos < rounds * config.histSize + config.histSize)

def Row.key (row : Row) : ℕ ×ₗ ℕ := toLex (row.ins, row.id)

def Account.growth (account : Account) (key : ℕ ×ₗ ℕ) (pos : Nat) : BitVec 64 :=
  tally Entry.count (fun entry => config.ofKey key entry && decide (entry.pos = pos))
    account.entries

/-- A position is not left behind when it is counted, and every cell and every
total of a round is the growth of the counters in it. -/
def Right (account : Account) : Record → Prop
  | .read _ _ pos _ => account.rounds * config.histSize ≤ pos
  | .printed packed rows =>
    (∀ entry ∈ account.entries, ∃ row ∈ rows, row.key = config.entryKey entry) ∧
    ∀ row ∈ rows, row.cells = (List.range config.histSize).map (fun i =>
        account.growth config row.key (account.rounds * config.histSize + i)) ∧
      row.total = if packed then none else some row.cells.sum
  | .reset => True

def InTime (account : Account) : Record → Prop
  | .read _ _ pos _ => pos < (account.rounds + slots) * config.histSize
  | .printed _ _ => True
  | .reset => True

/-- What was counted since the last direct print outside the round is as much as
was counted of the round before that print. -/
def Fair (account : Account) : Record → Prop
  | .read _ _ _ _ => True
  | .printed true _ => True
  | .printed false _ => ∀ entry ∈ account.entries,
      tally Entry.count (fun other =>
        config.ofKey (config.entryKey entry) other &&
          !config.inRound account.rounds other) account.since =
      tally Entry.count (fun other =>
        config.ofKey (config.entryKey entry) other &&
          config.inRound account.rounds other) account.before
  | .reset => True

end Prints

section Slots

variable (hlow : rounds * hist ≤ pos) (hhigh : pos < (rounds + slots) * hist)

include hlow hhigh

theorem slot_eq :
    pos % (hist * slots) =
      if pos < rounds * hist + hist then
        rounds % slots * hist + (pos - rounds * hist)
      else (1 - rounds % slots) * hist + (pos - (rounds * hist + hist)) := by
  simp only [slots] at *
  have hrounds := Nat.div_add_mod rounds 2
  have hbase : rounds * hist = hist * 2 * (rounds / 2) + rounds % 2 * hist := by
    calc rounds * hist = (2 * (rounds / 2) + rounds % 2) * hist := by rw [hrounds]
      _ = _ := by ring
  rw [Nat.add_mul] at hhigh
  obtain ⟨offset, rfl⟩ := Nat.exists_eq_add_of_le hlow
  rw [hbase, Nat.add_assoc, Nat.mul_add_mod]
  rcases Nat.mod_two_eq_zero_or_one rounds with hround | hround
  · rw [hround, Nat.mod_eq_of_lt (by omega)]
    split
    · omega
    · omega
  · rw [hround]
    by_cases hoffset : offset < hist
    · rw [Nat.mod_eq_of_lt (by omega), if_pos (by omega)]
      omega
    · rw [Nat.mod_eq_sub_mod (by omega), Nat.mod_eq_of_lt (by omega), if_neg (by omega)]
      omega

theorem slot_iff (hcell : cell < hist) :
    pos % (hist * slots) = rounds % slots * hist + cell ↔
      pos = rounds * hist + cell := by
  rw [slot_eq hlow hhigh]
  rw [Nat.add_mul] at hhigh
  simp only [slots] at *
  rcases Nat.mod_two_eq_zero_or_one rounds with hround | hround
  · rw [hround]
    split
    · omega
    · omega
  · rw [hround]
    split
    · omega
    · omega

theorem slot_range :
    (rounds % slots * hist ≤ pos % (hist * slots) ∧
      pos % (hist * slots) < rounds % slots * hist + hist) ↔
      pos < rounds * hist + hist := by
  rw [slot_eq hlow hhigh]
  rw [Nat.add_mul] at hhigh
  simp only [slots] at *
  rcases Nat.mod_two_eq_zero_or_one rounds with hround | hround
  · rw [hround]
    split
    · omega
    · omega
  · rw [hround]
    split
    · omega
    · omega

end Slots

end PerfProf.Hrcount
