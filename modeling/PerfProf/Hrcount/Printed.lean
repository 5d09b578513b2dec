import PerfProf.Hrcount.Rounds

namespace PerfProf.Hrcount

open Data

section Invariant

variable {δ : Type} (config : Config)

def Config.inCell (rounds cell : Nat) (entry : Entry) : Bool :=
  decide (rounds * config.histSize ≤ entry.pos ∧ entry.pos % (config.histSize * slots) = cell)

structure Holds (account : Account) (key : ℕ ×ₗ ℕ) (node : CountNode) :
    Prop where
  sum : node.sum = tally Entry.count (config.ofKey key) account.since
  hist : ∀ cell, cell < config.histSize * slots → node.hist cell =
    tally Entry.count (fun entry => config.ofKey key entry &&
      config.inCell account.rounds cell entry) account.entries

structure Agrees (ctx : Ctx δ) (account : Account) : Prop where
  values : ∀ ins idx, idx < config.nrTp → ctx.counters ins idx = account.values ins idx
  rounds : ctx.rounds = account.rounds
  reached : ∀ ins, ins < config.nrIns → account.rounds * config.histSize ≤ ctx.perinsPos ins
  bounded : ∀ entry ∈ account.entries, entry.pos < (account.rounds + slots) * config.histSize
  present : ∀ key, (∃ node, ctx.countDist.find key = some node) ↔
    ∃ entry ∈ account.entries, config.entryKey entry = key
  holds : ∀ key node, ctx.countDist.find key = some node → Holds config account key node

def Sound (account : Account) (out : Ctx δ × List Record) : Prop :=
  Account.Along (InTime config) account out.2 → (Account.Along (Right config) account out.2 ↔
      Account.Along (Fair config) account out.2) ∧
    Agrees config out.1 (account.after out.2)

variable {ctx : Ctx δ} {account : Account} {ins : Nat}

theorem Sound.silent (agrees : Agrees config ctx account) :
    Sound config account (ctx, []) :=
  fun _ => ⟨Iff.rfl, agrees⟩

theorem Sound.append (sound : Sound config account (ctx, first))
    (later : Agrees config ctx (account.after first) →
      Sound config (account.after first) (last, second)) :
    Sound config account (last, first ++ second) := by
  intro intime
  obtain ⟨hfirst, hsecond⟩ := (Account.along_append _ _ _ _).mp intime
  obtain ⟨hiff, agrees⟩ := sound hfirst
  obtain ⟨hlater, hlast⟩ := later agrees hsecond
  refine ⟨?_, ?_⟩
  · rw [Account.along_append, Account.along_append]
    exact and_congr hiff hlater
  · rw [Account.after_append]
    exact hlast

variable (balance : SearchTree.Balance δ CountNode)

theorem find_countDistInsert (ins id pos : Nat) (count : BitVec 64)
    (dist : SearchMap δ CountNode.key) :
    let fresh := config.freshNode ins id
    let after := countDistInsert balance config ins id pos count dist
    after.find fresh.key = some (((dist.find fresh.key).getD fresh).add
      (pos % (config.histSize * slots)) count) ∧
    ∀ other, other ≠ fresh.key → after.find other = dist.find other := by
  intro fresh after
  have hfind := dist.find_insert_getD balance fresh
  have hafter : after = (dist.insert balance fresh).set (((dist.find fresh.key).getD fresh).add
        (pos % (config.histSize * slots)) count) := by
    simp only [after, countDistInsert]
    rw [hfind]
  have hkey : ((dist.find fresh.key).getD fresh).key = fresh.key :=
    (dist.insert balance fresh).find_key hfind
  generalize (dist.find fresh.key).getD fresh = node at *
  have hset : (dist.insert balance fresh).find
      (node.add (pos % (config.histSize * slots)) count).key = some node := by
    rw [show (node.add (pos % (config.histSize * slots)) count).key = node.key
      from rfl, hkey, hfind]
  rw [hafter]
  refine ⟨?_, fun other hother => ?_⟩
  · rw [← hkey]
    exact SearchMap.find_set_self _ hset
  · rw [SearchMap.find_set_of_ne _ hset (by rw [← hkey] at hother; exact hother)]
    exact SearchMap.find_insert_other balance dist hother

theorem tally_entry (select : Entry → Bool) (entries : List Entry)
    (entry : Entry) :
    tally Entry.count select (entries ++ [entry]) =
      tally Entry.count select entries +
        if select entry then entry.count else 0 := by
  rw [tally_append]
  congr 1
  simp only [tally, List.filter_cons, List.filter_nil]
  split
  · simp
  · simp

theorem entries_read (account : Account) (ins id pos : Nat)
    (value : BitVec 64) :
    (account.next (.read ins id pos value)).entries =
      account.entries ++ [⟨ins, id, pos, value - account.values ins id⟩] := by
  simp [Account.next, Account.entries]

theorem Holds.fresh {ins id : Nat}
    (habsent : ∀ entry ∈ account.entries,
      config.entryKey entry ≠ (config.freshNode ins id).key) :
    Holds config account (config.freshNode ins id).key
      (config.freshNode ins id) := by
  have hnone : ∀ entry ∈ account.entries, config.ofKey (config.freshNode ins id).key entry =
      false := fun entry hentry => decide_eq_false (habsent entry hentry)
  constructor
  · refine (tally_eq_zero _ fun entry hentry => hnone entry ?_).symm
    exact List.mem_append_right _ hentry
  · intro cell _
    refine (tally_eq_zero _ fun entry hentry => ?_).symm
    rw [hnone entry hentry, Bool.false_and]

theorem Holds.add {ins id pos : Nat} {value : BitVec 64}
    (holds : Holds config account (config.freshNode ins id).key node)
    (hpos : account.rounds * config.histSize ≤ pos) :
    Holds config (account.next (.read ins id pos value))
      (config.freshNode ins id).key (node.add (pos % (config.histSize * slots))
        (value - account.values ins id)) := by
  have hkey : ∀ count, config.ofKey (config.freshNode ins id).key
      ⟨ins, id, pos, count⟩ = true := fun count => decide_eq_true rfl
  constructor
  · refine (congrArg (· + _) holds.sum).trans ?_
    refine Eq.trans ?_ (tally_entry _ account.since _).symm
    rw [hkey, if_pos rfl]
  · intro cell hcell
    rw [entries_read, tally_entry, hkey, Bool.true_and]
    by_cases hsame : pos % (config.histSize * slots) = cell
    · subst hsame
      rw [CountNode.add_hist_self, holds.hist _ hcell]
      congr 1
      exact (if_pos (decide_eq_true ⟨hpos, rfl⟩)).symm
    · rw [CountNode.add_hist_of_ne (Ne.symm hsame), holds.hist _ hcell]
      refine (BitVec.add_zero _).symm.trans (congrArg _ ?_)
      exact (if_neg (by simp [Config.inCell, hsame])).symm

theorem Holds.other {ins id pos : Nat} {value : BitVec 64}
    (holds : Holds config account key node)
    (hother : key ≠ (config.freshNode ins id).key) :
    Holds config (account.next (.read ins id pos value)) key node := by
  have hkey : ∀ count, config.ofKey key ⟨ins, id, pos, count⟩ = false :=
    fun count => decide_eq_false (Ne.symm hother)
  constructor
  · refine holds.sum.trans ?_
    refine Eq.trans ?_ (tally_entry _ account.since _).symm
    rw [hkey]
    exact (BitVec.add_zero _).symm
  · intro cell hcell
    rw [entries_read, tally_entry, hkey, Bool.false_and, holds.hist _ hcell]
    exact (BitVec.add_zero _).symm

theorem Agrees.moved (agrees : Agrees config ctx account)
    (hcounters : ∀ ins idx, idx < config.nrTp →
      next.counters ins idx = ctx.counters ins idx)
    (hrounds : next.rounds = ctx.rounds)
    (hpos : ∀ ins, ctx.perinsPos ins ≤ next.perinsPos ins)
    (hdist : next.countDist = ctx.countDist) : Agrees config next account where
  values := fun ins idx hidx => (hcounters ins idx hidx).trans (agrees.values ins idx hidx)
  rounds := hrounds.trans agrees.rounds
  reached := fun ins hins => (agrees.reached ins hins).trans (hpos ins)
  bounded := agrees.bounded
  present := by
    rw [hdist]
    exact agrees.present
  holds := by
    rw [hdist]
    exact agrees.holds

theorem setCounter_counters (ctx : Ctx δ) (ins event : Nat) (value : BitVec 64)
    (other idx : Nat) :
    (ctx.setCounter ins event value).counters other idx =
      if other = ins ∧ idx = event then value else ctx.counters other idx := by
  rw [Ctx.setCounter]
  by_cases hother : other = ins
  · subst hother
    by_cases hidx : idx = event
    · subst hidx
      simp
    · simp [hidx]
  · simp [hother]

theorem le_update {pos : Nat → Nat} (hnew : pos ins ≤ new) (other : Nat) :
    pos other ≤ Function.update pos ins new other := by
  by_cases hother : other = ins
  · subst hother
    rw [Function.update_self]
    exact hnew
  · rw [Function.update_of_ne hother]

section

variable (agrees : Agrees config ctx account) (hins : ins < config.nrIns)

include agrees hins

theorem Agrees.read (idx : Fin config.nrTp) (value : BitVec 64)
    (intime : ctx.perinsPos ins < (account.rounds + slots) * config.histSize) :
    Agrees config { ctx.setCounter ins idx value with
        countDist := countDistInsert balance config ins idx
          (ctx.perinsPos ins) (value - ctx.counters ins idx) ctx.countDist }
      (account.next (.read ins idx (ctx.perinsPos ins) value)) := by
  obtain ⟨hself, hothers⟩ := find_countDistInsert config balance ins idx
    (ctx.perinsPos ins) (value - ctx.counters ins idx) ctx.countDist
  have hvalue := agrees.values ins idx idx.isLt
  constructor
  · intro other event hevent
    refine (setCounter_counters ctx ins idx value other event).trans ?_
    rw [agrees.values other event hevent]
    simp only [Account.next]
    by_cases hother : other = ins
    · subst hother
      by_cases hsame : event = idx
      · subst hsame
        simp
      · simp [hsame]
    · simp [hother]
  · exact agrees.rounds
  · exact agrees.reached
  · intro entry hentry
    rw [entries_read] at hentry
    rcases List.mem_append.mp hentry with hold | hnew
    · exact agrees.bounded entry hold
    · rw [List.mem_singleton.mp hnew]
      exact intime
  · intro key
    rw [entries_read]
    by_cases hkey : key = (config.freshNode ins idx).key
    · subst hkey
      refine ⟨fun _ => ⟨_, List.mem_append_right _ (List.mem_singleton.mpr rfl),
        rfl⟩, fun _ => ⟨_, hself⟩⟩
    · rw [hothers key hkey, agrees.present key]
      refine ⟨?_, ?_⟩
      · rintro ⟨entry, hentry, hsame⟩
        exact ⟨entry, List.mem_append_left _ hentry, hsame⟩
      · rintro ⟨entry, hentry, hsame⟩
        rcases List.mem_append.mp hentry with hold | hnew
        · exact ⟨entry, hold, hsame⟩
        · rw [List.mem_singleton.mp hnew] at hsame
          exact absurd hsame.symm hkey
  · intro key node hfind
    by_cases hkey : key = (config.freshNode ins idx).key
    · subst hkey
      cases hself.symm.trans hfind
      rw [hvalue]
      refine Holds.add config ?_ (agrees.reached ins hins)
      cases hnode : ctx.countDist.find (config.freshNode ins idx).key with
      | some old => exact agrees.holds _ old hnode
      | none =>
        refine Holds.fresh config fun entry hentry hsame => ?_
        obtain ⟨old, hold⟩ := (agrees.present _).mpr ⟨entry, hentry, hsame⟩
        cases hnode.symm.trans hold
    · rw [hothers key hkey] at hfind
      exact (agrees.holds key node hfind).other config hkey

theorem readCtnr_sound (ctnr : Ctnr) :
    Sound config account (readCtnr balance config ins ctnr ctx) := by
  rw [readCtnr]
  split
  · exact .silent config agrees
  · have hcounters : ∀ other idx, idx < config.nrTp →
        (ctx.setCounter ins config.nrTp ctnr.value).counters other idx =
          ctx.counters other idx := by
      intro other idx hidx
      rw [setCounter_counters, if_neg (by omega)]
    dsimp only
    split
    · refine .silent config (agrees.moved config hcounters rfl ?_ rfl)
      exact le_update (Nat.le_add_right _ _)
    · exact .silent config (agrees.moved config hcounters rfl (fun _ => le_rfl) rfl)
  · rename_i idx _
    intro intime
    refine ⟨⟨fun _ => ⟨trivial, trivial⟩, fun _ => ⟨?_, trivial⟩⟩, ?_⟩
    · exact agrees.reached ins hins
    · exact agrees.read config balance hins idx ctnr.value intime.1
  · exact .silent config agrees

theorem readGroup_sound (groups : List Ctnr) :
    Sound config account (readGroup balance config ins groups ctx) := by
  induction groups generalizing ctx account with
  | nil => exact .silent config agrees
  | cons ctnr rest ih =>
    exact (readCtnr_sound config balance agrees hins ctnr).append config fun later => ih later

end

theorem sum_growth (account : Account) (key : ℕ ×ₗ ℕ) :
    ((List.range config.histSize).map fun i =>
      account.growth config key (account.rounds * config.histSize + i)).sum =
      tally Entry.count (fun entry => config.ofKey key entry &&
          config.inRound account.rounds entry) account.entries :=
  tally_window Entry.count Entry.pos (config.ofKey key) _ _ account.entries

@[simp] theorem entries_printed (account : Account) (packed : Bool)
    (rows : List Row) :
    (account.next (.printed packed rows)).entries = account.entries := by
  cases packed with
  | true => rfl
  | false => exact List.append_nil _

@[simp] theorem rounds_printed (account : Account) (packed : Bool)
    (rows : List Row) :
    (account.next (.printed packed rows)).rounds = account.rounds + 1 := by
  cases packed with
  | true => rfl
  | false => rfl

section

variable (agrees : Agrees config ctx account)

include agrees

theorem cells_eq (hfind : ctx.countDist.find key = some node) :
    ctx.cells config node =
      (List.range config.histSize).map fun i =>
        account.growth config key (account.rounds * config.histSize + i) := by
  refine List.map_congr_left fun i hi => ?_
  have hi := List.mem_range.mp hi
  have hhead : ctx.head config + i < config.histSize * slots := by
    have hless := Nat.mod_lt ctx.rounds (show 0 < slots by decide)
    have hmul := Nat.mul_le_mul_right config.histSize (Nat.le_of_lt_succ hless)
    rw [Ctx.head]
    simp only [slots] at *
    omega
  rw [(agrees.holds key node hfind).hist _ hhead, Account.growth]
  refine tally_congr _ fun entry hentry => ?_
  congr 1
  refine decide_eq_decide.mpr ?_
  rw [Ctx.head, agrees.rounds]
  constructor
  · rintro ⟨hlow, hcell⟩
    exact (slot_iff hlow (agrees.bounded entry hentry) hi).mp hcell
  · intro hpos
    have hlow : account.rounds * config.histSize ≤ entry.pos := by omega
    exact ⟨hlow, (slot_iff hlow (agrees.bounded entry hentry) hi).mpr hpos⟩

theorem total_iff (hfind : ctx.countDist.find key = some node) :
    node.sum = (ctx.cells config node).sum ↔
      tally Entry.count (fun entry => config.ofKey key entry &&
          !config.inRound account.rounds entry) account.since =
        tally Entry.count (fun entry => config.ofKey key entry &&
            config.inRound account.rounds entry) account.before :=
    by
  rw [cells_eq config agrees hfind, sum_growth, Account.entries, tally_append, (agrees.holds key
    node hfind).sum, tally_split Entry.count (config.ofKey key) (config.inRound account.rounds)
    account.since, add_comm (tally ..)]
  exact add_left_inj _

theorem printed_iff (packed : Bool) :
    let record := Record.printed packed
      (ctx.countDist.items.map fun node => (printNode config packed ctx node).1)
    Right config account record ↔ Fair config account record := by
  have hpresent : ∀ entry ∈ account.entries, ∃ node ∈ ctx.countDist.items,
      node.key = config.entryKey entry := by
    intro entry hentry
    obtain ⟨node, hfind⟩ := (agrees.present _).mpr ⟨entry, hentry, rfl⟩
    obtain ⟨hmem, hkey⟩ := ctx.countDist.find_eq_some.mp hfind
    exact ⟨node, hmem, hkey⟩
  have hrows : ∀ node ∈ ctx.countDist.items, (printNode config packed ctx node).1.key = node.key ∧
      (printNode config packed ctx node).1.cells =
        (List.range config.histSize).map fun i => account.growth config node.key
          (account.rounds * config.histSize + i) := by
    intro node hmem
    have hcells := cells_eq config agrees (ctx.countDist.mem_items_iff.mp hmem)
    cases packed with
    | true => exact ⟨rfl, hcells⟩
    | false => exact ⟨rfl, hcells⟩
  intro record
  cases packed with
  | true =>
    refine ⟨fun _ => trivial, fun _ => ⟨?_, ?_⟩⟩
    · intro entry hentry
      obtain ⟨node, hmem, hkey⟩ := hpresent entry hentry
      exact ⟨_, List.mem_map_of_mem hmem, hkey⟩
    · intro row hrow
      obtain ⟨node, hmem, rfl⟩ := List.mem_map.mp hrow
      exact ⟨(hrows node hmem).2, rfl⟩
  | false =>
    constructor
    · intro right entry hentry
      obtain ⟨node, hmem, hkey⟩ := hpresent entry hentry
      have hrow := right.2 _ (List.mem_map_of_mem hmem)
      rw [← hkey]
      exact (total_iff config agrees
        (ctx.countDist.mem_items_iff.mp hmem)).mp (Option.some.inj hrow.2)
    · intro fair
      refine ⟨?_, ?_⟩
      · intro entry hentry
        obtain ⟨node, hmem, hkey⟩ := hpresent entry hentry
        exact ⟨_, List.mem_map_of_mem hmem, hkey⟩
      · intro row hrow
        obtain ⟨node, hmem, rfl⟩ := List.mem_map.mp hrow
        have hfind := ctx.countDist.mem_items_iff.mp hmem
        obtain ⟨entry, hentry, hkey⟩ := (agrees.present _).mp ⟨node, hfind⟩
        have hfair := fair entry hentry
        rw [hkey] at hfair
        exact ⟨(hrows node hmem).2, congrArg some ((total_iff config agrees hfind).mpr hfair)⟩

theorem clear_hist (hfind : ctx.countDist.find key = some node)
    (hcell : cell < config.histSize * slots) :
    ctx.clear config node.hist cell =
      tally Entry.count (fun entry => config.ofKey key entry &&
          config.inCell (account.rounds + 1) cell entry) account.entries := by
  have hrange : ∀ entry ∈ account.entries, account.rounds * config.histSize ≤ entry.pos →
      entry.pos % (config.histSize * slots) = cell →
      ((ctx.head config ≤ cell ∧ cell < ctx.head config + config.histSize) ↔
        entry.pos < account.rounds * config.histSize + config.histSize) := by
    intro entry hentry hlow hsame
    rw [Ctx.head, agrees.rounds, ← hsame]
    exact slot_range hlow (agrees.bounded entry hentry)
  have hnext : (account.rounds + 1) * config.histSize = account.rounds * config.histSize +
      config.histSize := Nat.succ_mul _ _
  rw [Ctx.clear]
  split
  · rename_i hin
    refine (tally_eq_zero _ fun entry hentry => ?_).symm
    have hout : ¬((account.rounds + 1) * config.histSize ≤ entry.pos ∧
        entry.pos % (config.histSize * slots) = cell) := by
      intro ⟨hlow, hsame⟩
      have hbelow := (hrange entry hentry (by omega) hsame).mp hin
      omega
    simp [Config.inCell, hout]
  · rename_i hout
    rw [(agrees.holds key node hfind).hist cell hcell]
    refine tally_congr _ fun entry hentry => ?_
    congr 1
    refine decide_eq_decide.mpr ⟨fun ⟨hlow, hsame⟩ => ⟨?_, hsame⟩,
      fun ⟨hlow, hsame⟩ => ⟨by omega, hsame⟩⟩
    by_contra hbelow
    exact hout ((hrange entry hentry hlow hsame).mpr (by omega))

theorem Agrees.printed (packed : Bool)
    (rows : List Row) (hcounters : next.counters = ctx.counters)
    (hrounds : next.rounds = ctx.rounds + 1)
    (hpos : next.perinsPos = ctx.perinsPos)
    (hdone : ∀ ins, ins < config.nrIns →
      ctx.printPos config ≤ ctx.perinsPos ins)
    (hdist : next.countDist =
      ctx.countDist.mapAll (fun node => (printNode config packed ctx node).2)
        (printNode_key config packed ctx)) :
    Agrees config next (account.next (.printed packed rows)) :=
    by
  constructor
  · rw [hcounters]
    cases packed with
    | true => exact agrees.values
    | false => exact agrees.values
  · rw [hrounds, rounds_printed, agrees.rounds]
  · intro ins hins
    rw [hpos, rounds_printed, ← agrees.rounds]
    exact hdone ins hins
  · intro entry hentry
    rw [entries_printed] at hentry
    rw [rounds_printed]
    refine (agrees.bounded entry hentry).trans_le ?_
    exact Nat.mul_le_mul_right _ (by omega)
  · intro key
    rw [entries_printed, ← agrees.present key, hdist, SearchMap.find_mapAll]
    simp [Option.map_eq_some_iff]
  · intro key node hfind
    rw [hdist, SearchMap.find_mapAll] at hfind
    obtain ⟨old, hold, rfl⟩ := Option.map_eq_some_iff.mp hfind
    constructor
    · cases packed with
      | true => exact (agrees.holds key old hold).sum
      | false => rfl
    · intro cell hcell
      rw [entries_printed, rounds_printed, ← clear_hist config agrees hold hcell]
      cases packed with
      | true => rfl
      | false => rfl

theorem interval_sound (packed : Bool) :
    Sound config account (interval config packed ctx) := by
  rw [interval]
  split_ifs with hdone
  · exact .silent config agrees
  · intro _
    refine ⟨and_congr_left' (printed_iff config agrees packed), ?_⟩
    refine agrees.printed config packed _ rfl rfl rfl (fun ins hins => ?_) rfl
    simp only [List.any_eq_true, List.mem_range, decide_eq_true_eq, not_exists,
      not_and, not_lt] at hdone
    exact hdone ins hins

theorem Agrees.reset :
    Agrees config (hrcountReset ctx) (account.next .reset) := by
  constructor
  · exact agrees.values
  · rfl
  · intro ins _
    exact (Nat.zero_mul _).le
  · simp [Account.next, Account.entries]
  · simp [hrcountReset, Account.next, Account.entries]
  · simp [hrcountReset]

theorem hrcountInterval_sound (packed : Bool) :
    Sound config account (hrcountInterval config packed ctx) := by
  rw [hrcountInterval]
  dsimp only
  split
  · refine (interval_sound config agrees packed).append config fun later => ?_
    have hcleared : Agrees config { (interval config packed ctx).1 with needReset := false } _ :=
      later.moved config (fun _ _ _ => rfl) rfl (fun _ => le_rfl) rfl
    intro _
    exact ⟨Iff.rfl, hcleared.reset config⟩
  · exact interval_sound config agrees packed

theorem hrcountSample_sound (hins : ins < config.nrIns) (groups : List Ctnr)
    (packed : Bool) :
    Sound config account
      (hrcountSample balance config ins groups packed ctx) := by
  have counted := readGroup_sound config balance agrees hins groups
  rw [hrcountSample]
  dsimp only
  generalize readGroup balance config ins groups ctx = out at *
  have hmoved : ∀ {later : Account} (nr : Nat), Agrees config out.1 later →
      Agrees config { out.1 with
        perinsPos := Function.update out.1.perinsPos ins (out.1.perinsPos ins + 1)
        roundNr := nr } later := by
    intro later nr hlater
    exact hlater.moved config (fun _ _ _ => rfl) rfl (le_update (Nat.le_succ _)) rfl
  have hcounted : ∀ nr : Nat, Sound config account ({ out.1 with
        perinsPos := Function.update out.1.perinsPos ins (out.1.perinsPos ins + 1)
        roundNr := nr }, out.2) :=
    fun nr intime => ⟨(counted intime).1, hmoved nr (counted intime).2⟩
  split
  · split
    · exact (hcounted 0).append config fun later => interval_sound config later packed
    · exact hcounted _
  · exact hcounted _

theorem run_sound (inputs : List (Input config)) :
    Sound config account (run balance config inputs ctx) := by
  induction inputs generalizing ctx account with
  | nil => exact .silent config agrees
  | cons input rest ih =>
    have first : Sound config account (step balance config input ctx) := by
      cases input with
      | sample ins groups packed =>
        exact hrcountSample_sound config balance agrees ins.isLt groups packed
      | tick packed => exact hrcountInterval_sound config agrees packed
    exact first.append config fun later => ih later

end

theorem Agrees.init : Agrees config (Ctx.init : Ctx δ) .start := by
  constructor
  · intro ins idx _
    rfl
  · rfl
  · intro ins _
    exact (Nat.zero_mul _).le
  · simp [Account.start, Account.entries]
  · simp [Ctx.init, Account.start, Account.entries]
  · simp [Ctx.init]

structure Timed where
  inputs : List (Input config)
  inTime : Account.Along (InTime config) .start (run balance config inputs .init).2

/-- In a run that is in time, everything printed is right if and only if every
direct print is fair. -/
theorem rounds_right_iff (timed : Timed config balance) :
    Account.Along (Right config) .start
        (run balance config timed.inputs .init).2 ↔
      Account.Along (Fair config) .start
        (run balance config timed.inputs .init).2 :=
  (run_sound config balance (.init config) timed.inputs timed.inTime).1

end Invariant

def pair : Config where
  nrIns := 2
  nrTp := 1
  histSize := 2
  histSize_pos := Nat.two_pos
  period := 1000#64
  period_pos := by decide
  period_lt := by decide
  perins := false
  idToEvsel := fun id => if id = 7#64 then some (.tp 0) else none

def ahead : List (Input pair) :=
  [.sample ⟨0, by decide⟩ [⟨5#64, 7#64⟩] false,
    .sample ⟨0, by decide⟩ [⟨12#64, 7#64⟩] false,
    .sample ⟨0, by decide⟩ [⟨20#64, 7#64⟩] false,
    .sample ⟨1, by decide⟩ [⟨1#64, 7#64⟩] false,
    .sample ⟨1, by decide⟩ [⟨3#64, 7#64⟩] false,
    .tick false]

theorem run_ahead :
    (run (SearchTree.Balance.plain CountNode) pair ahead .init).2 =
      [.read 0 0 0 5#64, .read 0 0 1 12#64, .read 0 0 2 20#64,
        .read 1 0 0 1#64, .read 1 0 1 3#64,
        .printed false [⟨0, 0, [6#64, 9#64], some 23#64⟩], .reset] := by
  decide

def timedAhead : Timed pair (SearchTree.Balance.plain CountNode) where
  inputs := ahead
  inTime := by
    rw [run_ahead]
    simp [Account.Along, InTime, Account.next, Account.start, pair, slots]

/-- The total of the first round has a count of the second one in it. -/
theorem total_counts_next_round :
    ¬ Account.Along (Right pair) .start (run
      (SearchTree.Balance.plain CountNode) pair timedAhead.inputs .init).2 := by
  rw [show timedAhead.inputs = ahead from rfl, run_ahead]
  intro along
  have htotal := (along.2.2.2.2.2.1.2 _ List.mem_cons_self).2
  simp at htotal

end PerfProf.Hrcount
