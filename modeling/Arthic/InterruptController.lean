import Arthic.Interrupts
import Arthic.Library.Pic8259

namespace Arthic.InterruptController
open Pic8259 Transition

def pic1Command : Nat := 0x20
def pic1Data : Nat := 0x21
def pic2Command : Nat := 0xA0
def pic2Data : Nat := 0xA1
def picEoi : Byte := 0x20#8

def outb (p : Pair) (port : Nat) (value : Byte) : Pair :=
  if port = pic1Command then {p with master:=p.master.command value}
  else if port = pic1Data then {p with master:=p.master.data value}
  else if port = pic2Command then {p with slave:=p.slave.command value}
  else if port = pic2Data then {p with slave:=p.slave.data value}
  else p

def inb (p : Pair) (port : Nat) : Byte :=
  if port = pic1Data then p.master.mask else if port = pic2Data then p.slave.mask else 0#8

def picRemap (p : Pair) : Pair :=
  let p := outb p pic1Command 0x11#8
  let p := outb p pic2Command 0x11#8
  let p := outb p pic1Data 0x20#8
  let p := outb p pic2Data 0x28#8
  let p := outb p pic1Data 0x04#8
  let p := outb p pic2Data 0x02#8
  let p := outb p pic1Data 0x01#8
  let p := outb p pic2Data 0x01#8
  let p := outb p pic1Data 0xFF#8
  outb p pic2Data 0xFF#8

def irqUnmask (p : Pair) (irq : Nat) : Pair :=
  let port := if irq < 8 then pic1Data else pic2Data
  let irq := if 8 ≤ irq then irq-8 else irq
  outb p port (inb p port &&& ~~~(1#8 <<< irq))

-- The chips, irq_handlers and the interrupts that were taken and not acknowledged, the
-- last one first.
structure Controller where
  pics : Pair
  handlers : Nat → Bool
  handling : List Nat

def irqInstallHandler (s : Controller) (irq : Int) : Controller :=
  if irq < 0 ∨ 15 < irq then s
  else {s with handlers:=Function.update s.handlers irq.toNat true,pics:=irqUnmask s.pics irq.toNat}

-- irq_handler behind the call of the driver.
def irqHandlerEoi (p : Pair) (irq : Nat) : Pair :=
  let p := if 8 ≤ irq then outb p pic2Command picEoi else p
  outb p pic1Command picEoi

inductive Label where
  | raise (line : Nat)
  | install (irq : Int)
  | take
  | finish

-- A line is an input of one of the chips; the slave sits on line 2. A taken interrupt gets
-- to irq_handler under its vector, and handlers are left in the order opposite to entry.
def step (s : Controller) : Label → Option Controller
  | .raise line => if line < 16 ∧ line ≠ cascade then some {s with pics:=s.pics.raise line} else none
  | .install irq => some (irqInstallHandler s irq)
  | .take => s.pics.acknowledge.map fun taken => {s with pics:=taken.2,handling:=(taken.1.toNat-32)::s.handling}
  | .finish =>
    match s.handling with
    | [] => none
    | irq::rest => some {s with pics:=irqHandlerEoi s.pics irq,handling:=rest}

def lines : System Controller Label where
  initial s := ∃ p,s = ⟨picRemap p,fun _ => false,[]⟩
  step s label next := step s label = some next

-- Where a line stands in the master's order.
def level (irq : Nat) : Nat := if irq < 8 then irq else cascade

def Serves (service : Byte) (holds : Nat → Prop) : Prop := ∀ i < 8,service.getLsbD i = true ↔ holds i

structure Kept (s : Controller) : Prop where
  master : s.pics.master.expects = .commands ∧ s.pics.master.base = 0x20#8 ∧ s.pics.master.wiring = 0x04#8
  slave : s.pics.slave.expects = .commands ∧ s.pics.slave.base = 0x28#8 ∧ s.pics.slave.wiring = 0x02#8
  masterMask : ∀ i < 8,s.pics.master.mask.getLsbD i = !s.handlers i
  slaveMask : ∀ i < 8,s.pics.slave.mask.getLsbD i = !s.handlers (8+i)
  wire : s.pics.master.request.getLsbD cascade = false
  known : ∀ irq ∈ s.handling,irq < 16 ∧ irq ≠ cascade
  nested : s.handling.Pairwise fun later earlier => level later < level earlier
  masterServes : Serves s.pics.master.service fun i => ∃ irq ∈ s.handling,level irq = i
  slaveServes : Serves s.pics.slave.service fun i => 8+i ∈ s.handling

variable {s next : Controller} {label : Label} {p : Pair} {i : Nat}

theorem remapped (p : Pair) : picRemap p =
    ⟨⟨.commands,false,true,0x20#8,0x04#8,0x01#8,0xFF#8,0#8,0#8⟩,⟨.commands,false,true,0x28#8,0x02#8,0x01#8,0xFF#8,0#8,0#8⟩⟩ := rfl

theorem no_bits (i : Nat) : (0#8).getLsbD i = false := BitVec.getLsbD_zero

theorem kept_start (p : Pair) : Kept ⟨picRemap p,fun _ => false,[]⟩ := by
  rw [remapped]
  have full : ∀ i < 8,(0xFF#8).getLsbD i = true := by decide
  refine ⟨⟨rfl,rfl,rfl⟩,⟨rfl,rfl,rfl⟩,full,full,rfl,nofun,.nil,fun i _ => ?_,fun i _ => ?_⟩
  · dsimp only
    rw [no_bits]
    simp
  · dsimp only
    rw [no_bits]
    simp

theorem level_cases (irq : Nat) : irq < 8 ∧ level irq = irq ∨ 8 ≤ irq ∧ level irq = cascade := by
  unfold level
  split
  · rename_i low
    exact .inl ⟨low,rfl⟩
  · rename_i high
    exact .inr ⟨Nat.le_of_not_lt high,rfl⟩

theorem level_small (irq : Nat) : level irq < 8 := by
  have cascades : cascade = 2 := rfl
  rcases level_cases irq with ⟨low,same⟩ | ⟨high,same⟩
  · omega
  · omega

-- A line of the master is open exactly if it is installed and every interrupt being
-- handled stands behind it.
theorem master_open (kept : Kept s) (small : i < 8) :
    s.pics.master.open_ i = true ↔ s.handlers i = true ∧ ∀ other ∈ s.handling,i < level other := by
  rw [open_iff,kept.masterMask i small,Bool.not_eq_false']
  refine and_congr_right fun _ => ⟨fun free other member => ?_,fun behind j low => ?_⟩
  · by_contra before
    have served := (kept.masterServes (level other) (level_small other)).mpr ⟨other,member,rfl⟩
    rw [free (level other) (Nat.le_of_not_lt before)] at served
    cases served
  · by_contra busy
    obtain ⟨other,member,same⟩ := (kept.masterServes j (by omega)).mp (by simpa using busy)
    have after := behind other member
    omega

-- With nothing at or before line 2 in service the slave has nothing in service at all.
theorem slave_open (kept : Kept s) (small : i < 8) (behind : ∀ other ∈ s.handling,cascade < level other) :
    s.pics.slave.open_ i = true ↔ s.handlers (8+i) = true := by
  rw [open_iff,kept.slaveMask i small,Bool.not_eq_false']
  refine and_iff_left fun j low => ?_
  by_contra busy
  have member := (kept.slaveServes j (by omega)).mp (by simpa using busy)
  have after := behind _ member
  rcases level_cases (8+j) with ⟨under,_⟩ | ⟨_,same⟩
  · omega
  · omega

theorem slave_installed (kept : Kept s) (small : i < 8) (opened : s.pics.slave.open_ i = true) : s.handlers (8+i) = true := by
  have clear := (open_iff.mp opened).1
  rw [kept.slaveMask i small,Bool.not_eq_false'] at clear
  exact clear

def Requested (p : Pair) (irq : Nat) : Prop :=
  if irq < 8 then p.master.request.getLsbD irq = true else p.slave.request.getLsbD (irq-8) = true

-- What it takes for a line to be heard.
structure Deliverable (s : Controller) (irq : Nat) : Prop where
  line : irq < 16 ∧ irq ≠ cascade
  requested : Requested s.pics irq
  installed : s.handlers irq = true
  chained : 8 ≤ irq → s.handlers cascade = true
  urgent : ∀ other ∈ s.handling,level irq < level other

def granted (p : Pair) (irq : Nat) : Pair :=
  if irq < 8 then {p with master:=p.master.grant irq} else ⟨p.master.grant cascade,p.slave.grant (irq-8)⟩

theorem asked_bit (kept : Kept s) (small : i < 8) : s.pics.asked.getLsbD i = true ↔
    (i ≠ cascade ∧ s.pics.master.request.getLsbD i = true) ∨ i = cascade ∧ s.pics.inner.isSome = true := by
  have wire := kept.wire
  unfold Pair.asked
  by_cases wired : i = cascade
  · subst wired
    split
    · rename_i given
      rw [set_bit _ small]
      simp [given]
    · rename_i nothing
      rw [wire]
      simp [nothing]
  · split
    · rw [set_bit _ small]
      simp [wired,Ne.symm wired]
    · simp [wired]

theorem wired (kept : Kept s) : s.pics.wired = true := by
  unfold Pair.wired
  rw [kept.master.2.2,kept.slave.2.2]
  rfl

theorem vector_of (first : Nat) (small : i < 8) (fits : first+8 ≤ 256) : (BitVec.ofNat 8 first+BitVec.ofNat 8 i).toNat = first+i := by
  rw [BitVec.toNat_add,BitVec.toNat_ofNat,BitVec.toNat_ofNat]
  omega

theorem acknowledged (kept : Kept s) {taken : Byte × Pair} (given : s.pics.acknowledge = some taken) :
    ∃ irq,Deliverable s irq ∧ taken.1.toNat = 32+irq ∧ taken.2 = granted s.pics irq := by
  obtain ⟨i,offered,answer⟩ := Option.bind_eq_some_iff.mp given
  obtain ⟨_,small,asked,opened⟩ := offers_some offered
  obtain ⟨installed,behind⟩ := (master_open kept small).mp opened
  have wires := wired kept
  rcases (asked_bit kept small).mp asked with ⟨direct,requested⟩ | ⟨rfl,inner⟩
  · rw [if_neg fun both => direct both.1] at answer
    obtain rfl := Option.some.inj answer
    have here : level i = i := if_pos small
    refine ⟨i,⟨⟨by omega,direct⟩,?_,installed,fun high => absurd small (by omega),by rw [here]; exact behind⟩,?_,?_⟩
    · unfold Requested
      rw [if_pos small]
      exact requested
    · dsimp only
      rw [kept.master.2.1]
      exact vector_of 0x20 small (by decide)
    · unfold granted
      rw [if_pos small]
  · rw [if_pos ⟨rfl,wires⟩] at answer
    obtain ⟨j,slaveOffers,rfl⟩ := Option.map_eq_some_iff.mp answer
    obtain ⟨_,slaveSmall,slaveAsked,slaveOpened⟩ := offers_some slaveOffers
    have high : ¬8+j < 8 := by omega
    have there : level (8+j) = cascade := if_neg high
    have back : 8+j-8 = j := Nat.add_sub_cancel_left ..
    refine ⟨8+j,⟨⟨by omega,fun same => by have cascades : cascade = 2 := rfl; omega⟩,?_,slave_installed kept slaveSmall slaveOpened,
      fun _ => installed,by rw [there]; exact behind⟩,?_,?_⟩
    · unfold Requested
      rw [if_neg high,back]
      exact slaveAsked
    · dsimp only
      rw [kept.slave.2.1]
      exact (vector_of 0x28 slaveSmall (by decide)).trans (by omega)
    · unfold granted
      rw [if_neg high,back]

-- Whenever some line can be heard, one is.
theorem heard (kept : Kept s) (deliverable : ∃ irq,Deliverable s irq) : s.pics.acknowledge.isSome = true := by
  obtain ⟨irq,line,requested,installed,chained,urgent⟩ := deliverable
  have opens : s.pics.master.open_ (level irq) = true := by
    refine (master_open kept (level_small irq)).mpr ⟨?_,urgent⟩
    rcases level_cases irq with ⟨_,same⟩ | ⟨high,same⟩
    · rw [same]
      exact installed
    · rw [same]
      exact chained high
  have asks : s.pics.asked.getLsbD (level irq) = true := by
    rw [asked_bit kept (level_small irq)]
    unfold Requested at requested
    rcases level_cases irq with ⟨low,same⟩ | ⟨high,same⟩
    · rw [if_pos low] at requested
      rw [same]
      exact .inl ⟨line.2,requested⟩
    · rw [if_neg (by omega)] at requested
      refine .inr ⟨same,?_⟩
      unfold Pair.inner
      rw [offers_isSome kept.slave.1]
      refine ⟨irq-8,by omega,requested,(slave_open kept (by omega) (by rw [←same]; exact urgent)).mpr ?_⟩
      rw [Nat.add_sub_cancel' high]
      exact installed
  have offers := (offers_isSome kept.master.1).mpr ⟨_,level_small irq,asks,opens⟩
  obtain ⟨i,offered⟩ := Option.isSome_iff_exists.mp offers
  obtain ⟨_,small,asked,_⟩ := offers_some offered
  unfold Pair.acknowledge
  rw [offered,Option.bind_some]
  split
  · rename_i both
    rcases (asked_bit kept small).mp asked with ⟨direct,_⟩ | ⟨_,inner⟩
    · exact absurd both.1 direct
    · rw [Option.isSome_map]
      exact inner
  · rfl

theorem kept_raise (kept : Kept s) {line : Nat} (input : line < 16 ∧ line ≠ cascade) : Kept {s with pics:=s.pics.raise line} := by
  unfold Pair.raise
  split
  · refine {kept with wire:=?_}
    dsimp only
    rw [set_bit _ (by decide),kept.wire,Bool.false_or]
    exact decide_eq_false input.2
  · exact {kept with}

-- Unmasking writes one bit of one mask.
theorem unmasked (kept : Kept s) {irq : Nat} (line : irq < 16) : irqUnmask s.pics irq =
    if irq < 8 then {s.pics with master:={s.pics.master with mask:=clear s.pics.master.mask irq}}
    else {s.pics with slave:={s.pics.slave with mask:=clear s.pics.slave.mask (irq-8)}} := by
  have master := kept.master.1
  have slave := kept.slave.1
  unfold irqUnmask
  dsimp only
  by_cases low : irq < 8
  · rw [if_pos low,if_neg (by omega),if_pos low]
    change Pair.mk (s.pics.master.data _) s.pics.slave = _
    unfold Chip.data
    rw [master]
    rfl
  · rw [if_neg low,if_pos (by omega),if_neg low]
    change Pair.mk s.pics.master (s.pics.slave.data _) = _
    unfold Chip.data
    rw [slave]
    rfl

theorem kept_install (kept : Kept s) (irq : Int) : Kept (irqInstallHandler s irq) := by
  unfold irqInstallHandler
  split
  · exact kept
  · rename_i inside
    have line : irq.toNat < 16 := by omega
    generalize irq.toNat = n at line
    rw [unmasked kept line]
    split
    · rename_i low
      refine {kept with masterMask:=fun i small => ?_,slaveMask:=fun i small => ?_}
      · dsimp only
        rw [clear_bit _ small,kept.masterMask i small,Function.update_apply]
        by_cases same : i = n
        · simp [same]
        · simp [same,Ne.symm same]
      · dsimp only
        rw [kept.slaveMask i small,Function.update_of_ne (by omega)]
    · rename_i high
      refine {kept with masterMask:=fun i small => ?_,slaveMask:=fun i small => ?_}
      · dsimp only
        rw [kept.masterMask i small,Function.update_of_ne (by omega)]
      · dsimp only
        rw [clear_bit _ small,kept.slaveMask i small,Function.update_apply]
        by_cases same : n-8 = i
        · rw [if_pos (show 8+i = n by omega)]
          simp [same]
        · rw [if_neg (show 8+i ≠ n by omega)]
          simp [same]

theorem kept_take (kept : Kept s) {irq : Nat} (deliverable : Deliverable s irq) :
    Kept {s with pics:=granted s.pics irq,handling:=irq::s.handling} := by
  have cascades : cascade = 2 := rfl
  have known : ∀ other ∈ irq::s.handling,other < 16 ∧ other ≠ cascade := by
    intro other member
    rcases List.mem_cons.mp member with rfl | earlier
    · exact deliverable.line
    · exact kept.known other earlier
  have nested : (irq::s.handling).Pairwise fun later earlier => level later < level earlier :=
    List.pairwise_cons.mpr ⟨deliverable.urgent,kept.nested⟩
  have serves : ∀ i < 8,(set s.pics.master.service (level irq)).getLsbD i = true ↔ ∃ other ∈ irq::s.handling,level other = i := by
    intro i small
    rw [set_bit _ small,Bool.or_eq_true,kept.masterServes i small,decide_eq_true_eq]
    simp only [List.mem_cons,exists_eq_or_imp]
    exact or_comm
  unfold granted
  rcases level_cases irq with ⟨low,same⟩ | ⟨high,same⟩
  · rw [if_pos low]
    rw [same] at serves
    refine {kept with wire:=?_,known:=known,nested:=nested,masterServes:=serves,slaveServes:=fun i small => ?_}
    · change (clear s.pics.master.request irq).getLsbD cascade = false
      rw [clear_bit _ (by decide),kept.wire,Bool.false_and]
    · refine (kept.slaveServes i small).trans ?_
      change 8+i ∈ s.handling ↔ 8+i ∈ irq::s.handling
      rw [List.mem_cons]
      exact ⟨.inr,fun member => member.resolve_left (by omega)⟩
  · rw [if_neg (by omega)]
    rw [same] at serves
    refine {kept with wire:=?_,known:=known,nested:=nested,masterServes:=serves,slaveServes:=fun i small => ?_}
    · change (clear s.pics.master.request cascade).getLsbD cascade = false
      rw [clear_bit _ (by decide),kept.wire,Bool.false_and]
    · change (set s.pics.slave.service (irq-8)).getLsbD i = true ↔ 8+i ∈ irq::s.handling
      rw [set_bit _ small,Bool.or_eq_true,kept.slaveServes i small,List.mem_cons,decide_eq_true_eq,or_comm]
      exact or_congr_left (by omega)

theorem eoi_writes (p : Pair) (irq : Nat) : irqHandlerEoi p irq =
    if irq < 8 then {p with master:={p.master with service:=retire p.master.service}}
    else ⟨{p.master with service:=retire p.master.service},{p.slave with service:=retire p.slave.service}⟩ := by
  unfold irqHandlerEoi
  by_cases low : irq < 8
  · rw [if_neg (by omega),if_pos low]
    rfl
  · rw [if_pos (by omega),if_neg low]
    rfl

-- The interrupt that was taken last is the one its acknowledgement ends.
theorem kept_finish (kept : Kept s) {irq : Nat} {rest : List Nat} (handling : s.handling = irq::rest) :
    Kept {s with pics:=irqHandlerEoi s.pics irq,handling:=rest} := by
  have nested := kept.nested
  have known := kept.known
  have masterServes := kept.masterServes
  have slaveServes := kept.slaveServes
  rw [handling] at nested known masterServes slaveServes
  obtain ⟨urgent,later⟩ := List.pairwise_cons.mp nested
  have here : s.pics.master.service.getLsbD (level irq) = true :=
    (masterServes _ (level_small irq)).mpr ⟨irq,List.mem_cons_self ..,rfl⟩
  have before : ∀ j < level irq,s.pics.master.service.getLsbD j = false := by
    intro j below
    by_contra busy
    obtain ⟨other,member,same⟩ := (masterServes j (by have small := level_small irq; omega)).mp (by simpa using busy)
    rcases List.mem_cons.mp member with rfl | earlier
    · omega
    · have behind := urgent other earlier
      omega
  have retired := retire_first (level_small irq) here before
  have serves : ∀ i < 8,(clear s.pics.master.service (level irq)).getLsbD i = true ↔ ∃ other ∈ rest,level other = i := by
    intro i small
    rw [clear_bit _ small,Bool.and_eq_true,masterServes i small,Bool.not_eq_true',decide_eq_false_iff_not]
    constructor
    · rintro ⟨⟨other,member,same⟩,differs⟩
      rcases List.mem_cons.mp member with rfl | earlier
      · exact absurd same differs
      · exact ⟨other,earlier,same⟩
    · rintro ⟨other,member,same⟩
      refine ⟨⟨other,List.mem_cons_of_mem _ member,same⟩,fun equal => ?_⟩
      have behind := urgent other member
      omega
  have keeps : ∀ other ∈ rest,other < 16 ∧ other ≠ cascade := fun other member => known other (List.mem_cons_of_mem _ member)
  rw [eoi_writes,retired]
  rcases level_cases irq with ⟨low,_⟩ | ⟨high,same⟩
  · rw [if_pos low]
    refine {kept with known:=keeps,nested:=later,masterServes:=serves,slaveServes:=fun i small => ?_}
    refine (slaveServes i small).trans ?_
    change 8+i ∈ irq::rest ↔ 8+i ∈ rest
    rw [List.mem_cons]
    exact ⟨fun member => member.resolve_left (by omega),.inr⟩
  · have alone : ∀ j < 8,s.pics.slave.service.getLsbD j = true → j = irq-8 := by
      intro j small busy
      rcases List.mem_cons.mp ((slaveServes j small).mp busy) with equal | earlier
      · omega
      · have behind := urgent _ earlier
        rcases level_cases (8+j) with ⟨under,_⟩ | ⟨_,level⟩
        · omega
        · omega
    have bound := (known irq (List.mem_cons_self ..)).1
    have bit : s.pics.slave.service.getLsbD (irq-8) = true :=
      (slaveServes (irq-8) (by omega)).mpr (by
        change 8+(irq-8) ∈ irq::rest
        rw [Nat.add_sub_cancel' high]
        exact List.mem_cons_self ..)
    have slaveRetired : retire s.pics.slave.service = clear s.pics.slave.service (irq-8) := by
      refine retire_first (by omega) bit fun j below => ?_
      by_contra busy
      have equal := alone j (by omega) (by simpa using busy)
      omega
    rw [if_neg (by omega),slaveRetired]
    refine {kept with known:=keeps,nested:=later,masterServes:=serves,slaveServes:=fun i small => ?_}
    change (clear s.pics.slave.service (irq-8)).getLsbD i = true ↔ 8+i ∈ rest
    rw [clear_bit _ small,Bool.and_eq_true,Bool.not_eq_true',decide_eq_false_iff_not]
    constructor
    · rintro ⟨busy,differs⟩
      exact absurd (alone i small busy).symm differs
    · intro member
      have behind := urgent _ member
      rcases level_cases (8+i) with ⟨under,_⟩ | ⟨_,level⟩
      · omega
      · omega

theorem step_kept (kept : Kept s) (stepped : step s label = some next) : Kept next := by
  cases label with
  | raise line =>
    by_cases input : line < 16 ∧ line ≠ cascade
    · rw [step,if_pos input] at stepped
      exact Option.some.inj stepped ▸ kept_raise kept input
    · rw [step,if_neg input] at stepped
      cases stepped
  | install irq => exact Option.some.inj stepped ▸ kept_install kept irq
  | take =>
    obtain ⟨taken,given,rfl⟩ := Option.map_eq_some_iff.mp stepped
    obtain ⟨irq,deliverable,vector,after⟩ := acknowledged kept given
    rw [after,show taken.1.toNat-32 = irq by omega]
    exact kept_take kept deliverable
  | finish =>
    cases handling : s.handling with
    | nil =>
      simp only [step,handling] at stepped
      cases stepped
    | cons irq rest =>
      simp only [step,handling] at stepped
      exact Option.some.inj stepped ▸ kept_finish kept handling

theorem runs_kept (path : Reached lines s) : Kept s := by
  apply path.invariant
  · rintro s ⟨p,rfl⟩
    exact kept_start p
  · exact fun s label next kept stepped => step_kept kept stepped

theorem lines_served (path : Reached lines s) :
    (∀ i < 8,s.pics.master.service.getLsbD i = true ↔ ∃ irq ∈ s.handling,level irq = i) ∧
    (∀ i < 8,s.pics.slave.service.getLsbD i = true ↔ 8+i ∈ s.handling) ∧
    (∀ taken,s.pics.acknowledge = some taken → ∃ irq,Deliverable s irq ∧ taken.1.toNat = 32+irq) ∧
    ((∃ irq,Deliverable s irq) → s.pics.acknowledge.isSome = true) := by
  have kept := runs_kept path
  refine ⟨kept.masterServes,kept.slaveServes,fun taken given => ?_,heard kept⟩
  obtain ⟨irq,deliverable,vector,_⟩ := acknowledged kept given
  exact ⟨irq,deliverable,vector⟩

theorem eoi_retires : ∀ n : Fin 256,retire (BitVec.ofFin n) = Interrupts.eoi (BitVec.ofFin n) := by
  decide +kernel

theorem admits_open : ∀ i : Fin 8,∀ n : Fin 256,
    Interrupts.admits (BitVec.ofFin n) i = (List.range (i+1)).all fun j => !(BitVec.ofFin n : Byte).getLsbD j := by
  decide +kernel

-- The word the keyboard and timer handlers were followed through is the master's register
-- of lines in service.
theorem service_refines (path : Reached lines s) :
    (∀ taken,s.pics.acknowledge = some taken → ∃ irq,Deliverable s irq ∧
      Interrupts.admits s.pics.master.service (level irq) = true ∧
      taken.2.master.service = Interrupts.raise s.pics.master.service (level irq)) ∧
    ∀ irq,(irqHandlerEoi s.pics irq).master.service = Interrupts.eoi s.pics.master.service := by
  have kept := runs_kept path
  constructor
  · intro taken given
    obtain ⟨irq,deliverable,_,after⟩ := acknowledged kept given
    refine ⟨irq,deliverable,?_,?_⟩
    · refine (admits_open ⟨level irq,level_small irq⟩ s.pics.master.service.toFin).trans ?_
      refine List.all_eq_true.mpr fun j member => ?_
      have low : j < level irq+1 := List.mem_range.mp member
      by_contra busy
      obtain ⟨other,among,same⟩ := (kept.masterServes j (by have small := level_small irq; omega)).mp (by simpa using busy)
      have behind := deliverable.urgent other among
      omega
    · rw [after]
      unfold granted
      rcases level_cases irq with ⟨low,same⟩ | ⟨high,same⟩
      · rw [if_pos low,same]
        rfl
      · rw [if_neg (by omega),same]
        rfl
  · intro irq
    refine Eq.trans ?_ (eoi_retires s.pics.master.service.toFin)
    rw [eoi_writes]
    split
    · rfl
    · rfl

-- The disk interrupts while nothing else does, and then the timer does.
def quiet : Chip := ⟨.commands,false,true,0#8,0#8,0#8,0#8,0#8,0#8⟩
def installed : Controller :=
  irqInstallHandler (irqInstallHandler (irqInstallHandler ⟨picRemap ⟨quiet,quiet⟩,fun _ => false,[]⟩ 0) 2) 14
def asking : Controller := {installed with pics:=(installed.pics.raise 14)}
def serving : Controller := {asking with pics:=granted asking.pics 14,handling:=[14]}
def urgent : Controller := {serving with pics:=serving.pics.raise 0}

theorem urgent_reached : Reached lines urgent := by
  have ready : Runs lines ⟨picRemap ⟨quiet,quiet⟩,fun _ => false,[]⟩ [.install 0,.install 2,.install 14] installed :=
    .step (.step (.step .nil rfl) rfl) rfl
  have asks : step installed (.raise 14) = some asking := rfl
  have serves : step asking .take = some serving := rfl
  have again : step serving (.raise 0) = some urgent := rfl
  exact ⟨_,_,⟨_,rfl⟩,.step (.step (.step ready asks) serves) again⟩

theorem lines_served_nested : urgent.pics.slave.service.getLsbD 6 = true ∧ urgent.pics.acknowledge.isSome = true :=
  have served := lines_served urgent_reached
  ⟨(served.2.1 6 (by decide)).mpr (List.mem_singleton_self _),
    served.2.2.2 ⟨0,⟨by decide,by unfold Requested; decide,rfl,by decide,by
      intro other member
      obtain rfl := List.mem_singleton.mp member
      decide⟩⟩⟩

end Arthic.InterruptController
