import BaoHypervisor.Core.Mpu.Sharing

/-!
# Convergence of shared regions

In a run of calls that are up to date the CPUs agree after every step on what their address
spaces will be, so these cover the same addresses of the global section once no message is
left. The messages are finite: every echo of a removal is paid for by the region that was
removed, and every region by the call that inserted it.
-/

namespace BaoHypervisor

namespace ShareSystem

variable {P : Type*} {cpuNum : ℕ} {platform : SharePlatform cpuNum} {mpu : PhysMpu P}
  {held : P → Finset MpRegion} {s : ShareSystem P cpuNum} {c : Fin cpuNum}

/-- The address spaces are exact, and the CPUs agree on what they will be. -/
structure Inv (platform : SharePlatform cpuNum) (held : P → Finset MpRegion)
    (s : ShareSystem P cpuNum) : Prop where
  holds : ∀ c, (s.space c).Holds held
  agree : ∃ G, Agree platform.shares (fun c => (s.vmpu c).regions) s.queue G

theorem Settled.inv (h : s.Settled platform held) : s.Inv platform held := by
  refine ⟨h.holds, fun c => (s.vmpu c).regions, fun c r hr => ?_, fun c m hm => ?_,
    fun c => by rw [h.quiet c]; rfl, fun c => by rw [h.quiet c]; trivial, h.apart, h.shared,
    fun c a ha => ⟨c, ha⟩⟩
  · obtain ⟨i, hi, rfl⟩ := Vmpu.mem_regions.mp hr
    exact (h.holds c).granular i hi
  · rw [h.quiet c] at hm
    cases hm

/-- A call of which the regions and the broadcasts are known. -/
theorem inv_call {act : MemAct} {E : Finset MpRegion} {M : List ShareMsg}
    (hs : ∀ d, d ≠ c → (s.space d).Holds held)
    (hcall : ((s.space c).step mpu .hyp act).Holds held ∧
      ((s.space c).step mpu .hyp act).vmpu.regions = E ∧
      ((s.space c).step mpu .hyp act).broadcasts = M)
    {G : Fin cpuNum → Finset MpRegion}
    (hagree : Agree platform.shares (Function.update (fun d => (s.vmpu d).regions) c E)
      (fun d => s.queue d ++ M.filter fun m => platform.shares c m.2.asSec d) G) :
    (s.call platform mpu c act).Inv platform held := by
  obtain ⟨hholds, hregions, hbroadcasts⟩ := hcall
  refine ⟨fun d => ?_, G, ?_⟩
  · by_cases hd : d = c
    · subst hd
      have hvmpu : (s.call platform mpu d act).vmpu d = ((s.space d).step mpu .hyp act).vmpu :=
        Function.update_self d _ _
      have hphys : (s.call platform mpu d act).phys d = ((s.space d).step mpu .hyp act).phys :=
        Function.update_self d _ _
      refine ⟨?_, ?_, ?_⟩
      · rw [space, hvmpu]
        exact hholds.granular
      · rw [space, hvmpu]
        exact hholds.separate
      · rw [space, hvmpu, hphys]
        exact hholds.phys
    · have hvmpu : (s.call platform mpu c act).vmpu d = s.vmpu d := Function.update_of_ne hd _ _
      have hphys : (s.call platform mpu c act).phys d = s.phys d := Function.update_of_ne hd _ _
      rw [space, hvmpu, hphys]
      exact hs d hd
  · have hvmpu : (fun d => ((s.call platform mpu c act).vmpu d).regions) =
        Function.update (fun d => (s.vmpu d).regions) c E := by
      funext d
      rw [Function.update_apply]
      split
      · rename_i hd
        subst hd
        exact (congrArg Vmpu.regions (Function.update_self d _ _)).trans hregions
      · rename_i hd
        exact congrArg Vmpu.regions (Function.update_of_ne hd _ _)
    have hqueue : (s.call platform mpu c act).queue =
        fun d => s.queue d ++ M.filter fun m => platform.shares c m.2.asSec d := by
      funext d
      rw [← hbroadcasts]
      rfl
    rw [hvmpu, hqueue]
    exact hagree

/-- A region is mapped. -/
theorem Inv.map (hs : s.Inv platform held) (hmpu : mpu.Keeps held) {mpr : MpRegion}
    (hproper : s.Proper (.map c mpr)) (hfresh : s.UpToDate (.map c mpr)) :
    (s.step platform mpu (.map c mpr)).Inv platform held := by
  obtain ⟨hwf, hapart, hroom⟩ := hproper
  obtain ⟨hqueue, hothers⟩ := hfresh
  obtain ⟨hholds, G, hagree⟩ := hs
  obtain ⟨hstep, hregions, hbroadcasts⟩ := (hholds c).map hmpu hroom hwf
    (Vmpu.apartFrom_iff.mp (hapart c)) true
  refine inv_call (fun d _ => hholds d) ⟨hstep, hregions, hbroadcasts⟩ (G :=
    Agree.after platform.shares G c (.insertRegion, mpr)) ?_
  have hinsert := hagree.insert platform.shares_self platform.equivalence_shares hwf
    (fun d q hq => by
      obtain ⟨d', hd'⟩ := hagree.present d q hq
      exact Vmpu.apartFrom_iff.mp (hapart d') q hd') hqueue
    (fun d hd => along_toFind_of_forall fun e he hfound hwithin => by
      obtain ⟨hnot, hnot'⟩ := hothers d hd _ he rfl hwithin
      exact hfound.elim hnot hnot')
  have hsend : sendTo platform.shares s.queue c (.insertRegion, mpr) =
      fun d => s.queue d ++ ((s.space c).broadcasts ++ [(ShareOp.insertRegion, mpr)]).filter
        fun m => platform.shares c m.2.asSec d := by
    funext d
    have happend : sendTo platform.shares s.queue c (.insertRegion, mpr) d ++
          ([] : List ShareMsg).filter (fun m => platform.shares c m.2.asSec d) =
        s.queue d ++ [(ShareOp.insertRegion, mpr)].filter fun m => platform.shares c m.2.asSec d :=
      Agree.sendTo_append [] d
    rwa [List.filter_nil, List.append_nil] at happend
  rw [hsend] at hinsert
  exact hinsert

/-- A range is unmapped. -/
theorem Inv.unmapRange (hs : s.Inv platform held) (hmpu : mpu.Keeps held) {vaddr : Addr}
    {size : SizeT} (hproper : s.Proper (.unmapRange c vaddr size))
    (hfresh : s.UpToDate (.unmapRange c vaddr size)) :
    (s.step platform mpu (.unmapRange c vaddr size)).Inv platform held := by
  obtain ⟨hwf, hroom⟩ := hproper
  obtain ⟨hholds, G, hagree⟩ := hs
  by_cases hfound : ∃ e ∈ (s.vmpu c).regions, (MpRegion.ofRange vaddr size).Within e
  · obtain ⟨e, he, hwithin⟩ := hfound
    have hreg := hagree.wf c e he
    obtain ⟨hstep, hregions, hbroadcasts⟩ :=
      (hholds c).unmapRange hmpu hroom hwf he hwithin true
    obtain ⟨G', hG'⟩ := hagree.replace platform.shares_self platform.equivalence_shares he
      (hfresh e he hwithin) (fun p hp => (MemState.mem_pieces hreg hwf hwithin hp).1)
      (fun p hp => ⟨(MemState.mem_pieces hreg hwf hwithin hp).2.1, fun hep =>
        MemState.not_within_piece hreg hwf hwithin hp (hwithin.trans hep)⟩)
      (MemState.pieces_pairwise hreg hwf hwithin)
    exact inv_call (fun d _ => hholds d) ⟨hstep, hregions, hbroadcasts⟩ hG'
  · have hsame := (hholds c).unmapRange_of_forall mpu hwf
      (fun q hq hwithin => hfound ⟨q, hq, hwithin⟩) true
    refine inv_call (fun d _ => hholds d) (E := (s.vmpu c).regions) (M := []) (G := G) ?_ ?_
    · rw [hsame]
      exact ⟨hholds c, rfl, rfl⟩
    · rw [Function.update_eq_self c fun d => (s.vmpu d).regions]
      simpa using hagree

theorem unmapMsgs_self (e : MpRegion) :
    MemState.unmapMsgs e e.base e.size = [(.removeRegion, e)] := by
  have htop : MemState.topSize e e.base e.size = 0#64 := by simp [MemState.topSize]
  have hbottom : MemState.bottomSize e e.base = 0#64 := by simp [MemState.bottomSize]
  rw [MemState.unmapMsgs, MemState.pieces, htop, hbottom]
  rfl

/-- A message is handled. -/
theorem Inv.deliver (hs : s.Inv platform held) (hmpu : mpu.Keeps held)
    (hproper : s.Proper (.deliver c)) : (s.step platform mpu (.deliver c)).Inv platform held := by
  rw [step]
  cases hqueue : s.queue c with
  | nil => exact hs
  | cons m rest =>
      obtain ⟨hholds, G, hagree⟩ := hs
      have hready := hagree.ready c
      have hwf := hagree.wfMsg c
      rw [hqueue] at hready hwf
      rw [List.forall_mem_cons] at hwf
      have hothers : ∀ d, d ≠ c → Function.update s.queue c rest d = s.queue d :=
        fun d hd => Function.update_of_ne hd _ _
      obtain ⟨op, r⟩ := m
      have hrange : (MpRegion.ofRange r.base r.size).WellFormed :=
        ⟨hwf.1.pos, hwf.1.limit_le, hwf.1.base_dvd, hwf.1.size_dvd⟩
      cases op with
      | insertRegion =>
          have hmap := (hholds c).map hmpu hproper hwf.1 hready.1 false
          have hagree' : Agree platform.shares
              (Function.update (fun d => (s.vmpu d).regions) c
                (applyMsg (s.vmpu c).regions (.insertRegion, r)))
              (fun d => Function.update s.queue c rest d ++
                ([] : List ShareMsg).filter fun m => platform.shares c m.2.asSec d) G := by
            refine hagree.deliver hqueue ?_ fun d hd => .inl ?_
            · simp
            · simpa using hothers d hd
          exact inv_call (s := { s with queue := Function.update s.queue c rest })
            (fun d _ => hholds d) hmap hagree'
      | removeRegion =>
          by_cases hfound : r ∈ (s.vmpu c).regions
          · have hunmap := (hholds c).unmapRange hmpu hproper hrange hfound
              ⟨le_rfl, le_rfl⟩ false
            rw [unmapMsgs_self] at hunmap
            have hagree' : Agree platform.shares
                (Function.update (fun d => (s.vmpu d).regions) c
                  (applyMsg (s.vmpu c).regions (.removeRegion, r)))
                (fun d => Function.update s.queue c rest d ++
                  [(ShareOp.removeRegion, r)].filter fun m => platform.shares c m.2.asSec d) G := by
              refine hagree.deliver hqueue ?_ fun d hd => ?_
              · simp [platform.shares_self]
              · cases hshares : platform.shares c r.asSec d with
                | false => exact .inl (by simp [hshares, hothers d hd])
                | true => exact .inr ⟨rfl, hfound, by simp [hshares, hothers d hd]⟩
            exact inv_call (s := { s with queue := Function.update s.queue c rest })
              (fun d _ => hholds d) hunmap hagree'
          · have hsame := (hholds c).unmapRange_of_forall mpu hrange
              (fun q hq hwithin => hfound (hready.1.1 q hq hwithin ▸ hq)) false
            have herase : applyMsg (s.vmpu c).regions (.removeRegion, r) =
                (s.vmpu c).regions := Finset.erase_eq_of_notMem hfound
            have hagree' : Agree platform.shares
                (Function.update (fun d => (s.vmpu d).regions) c
                  (applyMsg (s.vmpu c).regions (.removeRegion, r)))
                (fun d => Function.update s.queue c rest d ++
                  ([] : List ShareMsg).filter fun m => platform.shares c m.2.asSec d) G := by
              refine hagree.deliver hqueue ?_ fun d hd => .inl ?_
              · simp
              · simpa using hothers d hd
            refine inv_call (s := { s with queue := Function.update s.queue c rest })
              (fun d _ => hholds d) ?_ hagree'
            have hcall : (s.space c).step mpu .hyp (handleBroadcast (.removeRegion, r)) =
                s.space c := hsame
            refine ⟨?_, ?_, ?_⟩
            · have hspace := hholds c
              rw [← hcall] at hspace
              exact hspace
            · exact (congrArg (fun s => s.vmpu.regions) hcall).trans herase.symm
            · exact congrArg MemState.broadcasts hcall

def insertions (Q : List ShareMsg) : ℕ := Q.countP fun m => m.1 = .insertRegion

/-- What may yet be removed, and so make an echo: the regions that are mapped and those that
are to be inserted. -/
def load (s : ShareSystem P cpuNum) : ℕ :=
  ∑ d, ((s.vmpu d).regions.card + insertions (s.queue d))

def budget (s : ShareSystem P cpuNum) : ℕ := s.sent + cpuNum * s.load

theorem sum_update_add (f : Fin cpuNum → ℕ) (c : Fin cpuNum) (n : ℕ) :
    ∑ d, Function.update f c n d + f c = ∑ d, f d + n := by
  rw [Finset.sum_update_of_mem (Finset.mem_univ c), ← Finset.add_sum_erase _ f (Finset.mem_univ c),
    Finset.sdiff_singleton_eq_erase]
  omega

theorem sum_le_mul {f : Fin cpuNum → ℕ} {n : ℕ} (h : ∀ d, f d ≤ n) : ∑ d, f d ≤ cpuNum * n := by
  have hsum := Finset.sum_le_card_nsmul Finset.univ f n fun d _ => h d
  rwa [Finset.card_univ, Fintype.card_fin, smul_eq_mul] at hsum

/-- A call changes the load by the regions it maps and the insertions it sends. -/
theorem budget_call {act : MemAct} {E : Finset MpRegion} {M : List ShareMsg}
    (hregions : ((s.space c).step mpu .hyp act).vmpu.regions = E)
    (hbroadcasts : ((s.space c).step mpu .hyp act).broadcasts = M) :
    (s.call platform mpu c act).budget + cpuNum * (s.vmpu c).regions.card ≤
      s.budget + cpuNum * (M.length + E.card + cpuNum * insertions M) := by
  have hload : (s.call platform mpu c act).load + (s.vmpu c).regions.card ≤
      s.load + E.card + cpuNum * insertions M := by
    have hregionsum : ∑ d, ((s.call platform mpu c act).vmpu d).regions.card +
        (s.vmpu c).regions.card = ∑ d, (s.vmpu d).regions.card + E.card := by
      have hupdate := sum_update_add (fun d => (s.vmpu d).regions.card) c E.card
      rw [← hupdate]
      congr 1
      refine Finset.sum_congr rfl fun d _ => ?_
      by_cases hd : d = c
      · subst hd
        rw [Function.update_self, ← hregions]
        exact congrArg (fun v : Vmpu => v.regions.card) (Function.update_self d _ _)
      · rw [Function.update_of_ne hd]
        exact congrArg (fun v : Vmpu => v.regions.card) (Function.update_of_ne hd _ _)
    have hqueuesum : ∑ d, insertions ((s.call platform mpu c act).queue d) ≤
        ∑ d, insertions (s.queue d) + cpuNum * insertions M := by
      have hmsgs : ∑ d, insertions (M.filter fun m => platform.shares c m.2.asSec d) ≤
          cpuNum * insertions M :=
        sum_le_mul fun d => by
          rw [insertions, insertions]
          exact List.filter_sublist.countP_le
      refine le_trans (le_of_eq ?_) (Nat.add_le_add_left hmsgs _)
      rw [← Finset.sum_add_distrib]
      refine Finset.sum_congr rfl fun d _ => ?_
      rw [← hbroadcasts]
      exact List.countP_append
    rw [load, load, Finset.sum_add_distrib, Finset.sum_add_distrib]
    omega
  have hsent : (s.call platform mpu c act).sent ≤ s.sent + cpuNum * M.length := by
    refine Nat.add_le_add_left (sum_le_mul fun d => ?_) _
    rw [hbroadcasts]
    exact List.length_filter_le _ _
  have hmul := Nat.mul_le_mul_left cpuNum hload
  simp only [budget, Nat.mul_add] at hmul ⊢
  omega

def IsCall : ShareAct cpuNum → Bool
  | .map _ _ | .unmapRange _ _ _ => true
  | .deliver _ => false

theorem card_exec_applyMsg_le (E : Finset MpRegion) (M : List ShareMsg) :
    (Run.exec applyMsg E M).card ≤ E.card + insertions M := by
  induction M generalizing E with
  | nil => exact le_rfl
  | cons m M ih =>
      have hle := ih (applyMsg E m)
      obtain ⟨op, r⟩ := m
      cases op with
      | insertRegion =>
          have hcard := Finset.card_insert_le r E
          rw [insertions, List.countP_cons_of_pos (by simp)]
          rw [insertions, applyMsg] at hle
          exact hle.trans (by omega)
      | removeRegion =>
          have hcard := Finset.card_erase_le (s := E) (a := r)
          rw [insertions, List.countP_cons_of_neg (by simp)]
          rw [insertions, applyMsg] at hle
          exact hle.trans (by omega)

/-- The cost of a call with two insertions at most. -/
theorem budget_call_le {act : MemAct} {M : List ShareMsg}
    (hregions : ((s.space c).step mpu .hyp act).vmpu.regions =
      Run.exec applyMsg (s.vmpu c).regions M)
    (hbroadcasts : ((s.space c).step mpu .hyp act).broadcasts = M) (hlength : M.length ≤ 3)
    (hinsertions : insertions M ≤ 2) :
    (s.call platform mpu c act).budget ≤ s.budget + cpuNum * (2 * cpuNum + 5) := by
  have hbudget : (s.call platform mpu c act).budget + cpuNum * (s.vmpu c).regions.card ≤
      s.budget + cpuNum * (M.length + (Run.exec applyMsg (s.vmpu c).regions M).card +
        cpuNum * insertions M) := budget_call hregions hbroadcasts
  have hcard := card_exec_applyMsg_le (s.vmpu c).regions M
  have hinner : M.length + (Run.exec applyMsg (s.vmpu c).regions M).card +
      cpuNum * insertions M ≤ (s.vmpu c).regions.card + (2 * cpuNum + 5) := by
    have hmul := Nat.mul_le_mul_left cpuNum hinsertions
    omega
  have hmul := Nat.mul_le_mul_left cpuNum hinner
  rw [Nat.mul_add cpuNum (s.vmpu c).regions.card] at hmul
  omega

/-- The cost of handling a message, which is paid for by what it removes or inserts. -/
theorem budget_handle {m : ShareMsg} {rest : List ShareMsg} (hqueue : s.queue c = m :: rest)
    {E : Finset MpRegion} {M : List ShareMsg}
    (hregions : ((s.space c).step mpu .hyp (handleBroadcast m)).vmpu.regions = E)
    (hbroadcasts : ((s.space c).step mpu .hyp (handleBroadcast m)).broadcasts = M)
    (hpaid : M.length + E.card + cpuNum * insertions M ≤
      (s.vmpu c).regions.card + insertions [m]) :
    (call platform mpu { s with queue := Function.update s.queue c rest } c
      (handleBroadcast m)).budget ≤ s.budget := by
  have hsum := sum_update_add (fun d => insertions (s.queue d)) c (insertions rest)
  have hcons : insertions (s.queue c) = insertions rest + insertions [m] := by
    rw [hqueue, ← List.singleton_append, insertions, List.countP_append, Nat.add_comm]
    rfl
  have hqueues : ∑ d, insertions (Function.update s.queue c rest d) =
      ∑ d, Function.update (fun d => insertions (s.queue d)) c (insertions rest) d := by
    refine Finset.sum_congr rfl fun d _ => ?_
    rw [Function.update_apply, Function.update_apply]
    split <;> rfl
  have hload : load { s with queue := Function.update s.queue c rest } =
      ∑ d, (s.vmpu d).regions.card +
        ∑ d, insertions (Function.update s.queue c rest d) := Finset.sum_add_distrib
  have hload' : s.load = load { s with queue := Function.update s.queue c rest } +
      insertions [m] := by
    rw [hload, load, Finset.sum_add_distrib, hqueues]
    omega
  have hbudget : (call platform mpu { s with queue := Function.update s.queue c rest } c
        (handleBroadcast m)).budget + cpuNum * (s.vmpu c).regions.card ≤
      s.sent + cpuNum * load { s with queue := Function.update s.queue c rest } +
        cpuNum * (M.length + E.card + cpuNum * insertions M) :=
    budget_call (s := { s with queue := Function.update s.queue c rest }) hregions hbroadcasts
  have hmul := Nat.mul_le_mul_left cpuNum hpaid
  rw [Nat.mul_add cpuNum (s.vmpu c).regions.card] at hmul
  have hbefore : s.budget = s.sent + (cpuNum *
      load { s with queue := Function.update s.queue c rest } + cpuNum * insertions [m]) := by
    rw [budget, hload', Nat.mul_add]
  omega

/-- Handling a message is paid for, and a call adds what it may cost at most. -/
theorem Inv.budget_step (hs : s.Inv platform held) (hmpu : mpu.Keeps held)
    {act : ShareAct cpuNum} (hproper : s.Proper act) :
    (s.step platform mpu act).budget ≤
      s.budget + if IsCall act then cpuNum * (2 * cpuNum + 5) else 0 := by
  obtain ⟨hholds, G, hagree⟩ := hs
  cases act with
  | map c mpr =>
      obtain ⟨hwf, hapart, hroom⟩ := hproper
      obtain ⟨-, hregions, hbroadcasts⟩ := (hholds c).map hmpu hroom hwf
        (Vmpu.apartFrom_iff.mp (hapart c)) true
      exact budget_call_le (M := [(.insertRegion, mpr)]) hregions hbroadcasts (by simp)
        (List.countP_le_length.trans (by simp))
  | unmapRange c vaddr size =>
      obtain ⟨hwf, hroom⟩ := hproper
      by_cases hfound : ∃ e ∈ (s.vmpu c).regions, (MpRegion.ofRange vaddr size).Within e
      · obtain ⟨e, he, hwithin⟩ := hfound
        obtain ⟨-, hregions, hbroadcasts⟩ :=
          (hholds c).unmapRange hmpu hroom hwf he hwithin true
        have hlength := MemState.length_pieces_le e vaddr size
        refine budget_call_le hregions hbroadcasts ?_ ?_
        · simpa [MemState.unmapMsgs] using Nat.succ_le_succ hlength
        · refine (List.countP_cons_of_neg (by simp)).trans_le (List.countP_le_length.trans ?_)
          simpa using hlength
      · have hsame := (hholds c).unmapRange_of_forall mpu hwf
          (fun q hq hwithin => hfound ⟨q, hq, hwithin⟩) true
        exact budget_call_le (M := []) (by rw [hsame]; rfl) (by rw [hsame]; rfl) (by decide)
          (by decide)
  | deliver c =>
      rw [step]
      cases hqueue : s.queue c with
      | nil => exact Nat.le_add_right _ _
      | cons m rest =>
          have hready := hagree.ready c
          have hwf := hagree.wfMsg c
          rw [hqueue] at hready hwf
          rw [List.forall_mem_cons] at hwf
          obtain ⟨op, r⟩ := m
          have hrange : (MpRegion.ofRange r.base r.size).WellFormed :=
            ⟨hwf.1.pos, hwf.1.limit_le, hwf.1.base_dvd, hwf.1.size_dvd⟩
          cases op with
          | insertRegion =>
              obtain ⟨-, hregions, hbroadcasts⟩ :=
                (hholds c).map hmpu hproper hwf.1 hready.1 false
              refine budget_handle (M := []) hqueue hregions hbroadcasts ?_
              have hle := Finset.card_insert_le r (s.vmpu c).regions
              simpa [insertions, applyMsg, space] using hle
          | removeRegion =>
              by_cases hfound : r ∈ (s.vmpu c).regions
              · obtain ⟨-, hregions, hbroadcasts⟩ := (hholds c).unmapRange hmpu
                  hproper hrange hfound ⟨le_rfl, le_rfl⟩ false
                rw [unmapMsgs_self] at hregions hbroadcasts
                refine budget_handle hqueue hregions hbroadcasts ?_
                have heq := Finset.card_erase_add_one hfound
                simp only [insertions, space, Run.exec_cons, Run.exec_nil, applyMsg]
                simp
                omega
              · have hsame := (hholds c).unmapRange_of_forall mpu hrange
                  (fun q hq hwithin => hfound (hready.1.1 q hq hwithin ▸ hq)) false
                have hcall : (s.space c).step mpu .hyp (handleBroadcast (.removeRegion, r)) =
                    s.space c := hsame
                exact budget_handle (M := []) hqueue (congrArg (fun s => s.vmpu.regions) hcall)
                  (congrArg MemState.broadcasts hcall) (by simp [insertions, space])

/-- Every step keeps the agreement. -/
theorem Inv.step (hs : s.Inv platform held) (hmpu : mpu.Keeps held) {act : ShareAct cpuNum}
    (hproper : s.Proper act) (hfresh : s.UpToDate act) :
    (s.step platform mpu act).Inv platform held := by
  cases act with
  | map c mpr => exact hs.map hmpu hproper hfresh
  | unmapRange c vaddr size => exact hs.unmapRange hmpu hproper hfresh
  | deliver c => exact hs.deliver hmpu hproper

/-- Without messages the agreed sets are those of the CPUs. -/
theorem Inv.converged (hs : s.Inv platform held) (hquiet : s.Quiet) : s.Converged := by
  obtain ⟨-, G, hagree⟩ := hs
  have hsets : ∀ c, (s.vmpu c).regions = G c := by
    intro c
    have hdrained := hagree.drained c
    rwa [hquiet c] at hdrained
  have hcover : ∀ c d a, s.GlobalCovers c a → s.GlobalCovers d a := by
    rintro c d a ⟨r, hr, hsec, hcovers⟩
    refine ⟨r, ?_, hsec, hcovers⟩
    rw [hsets] at hr ⊢
    refine (hagree.shared c r hr d).mpr ?_
    by_cases hcd : d = c
    · exact .inl hcd
    · refine .inr ?_
      have hmask := SharePlatform.getLsbD_bitMask platform.cpuNum_le d.isLt
      have hne : c ≠ d := fun heq => hcd heq.symm
      simp [SharePlatform.shares, SharePlatform.memSectionSharedCpus, hsec, hmask, hne]
  exact fun c d a => ⟨hcover c d a, hcover d c a⟩

/-- The messages of a run are paid for by its calls and by what was there before. -/
theorem sent_exec_le (hmpu : mpu.Keeps held) (acts : List (ShareAct cpuNum))
    (hs : s.Inv platform held) (hproper : Run.Along (step platform mpu) Proper s acts)
    (hfresh : Run.Along (step platform mpu) UpToDate s acts) :
    (Run.exec (step platform mpu) s acts).budget ≤
      s.budget + cpuNum * (2 * cpuNum + 5) * acts.countP IsCall := by
  induction acts generalizing s with
  | nil => exact le_rfl
  | cons act acts ih =>
      have hstep := hs.budget_step hmpu hproper.1
      have hrun := ih (hs.step hmpu hproper.1 hfresh.1) hproper.2 hfresh.2
      refine hrun.trans ?_
      generalize cpuNum * (2 * cpuNum + 5) = cost at hstep ⊢
      cases hcall : IsCall act with
      | false =>
          rw [List.countP_cons_of_neg (by simp [hcall])]
          rw [hcall, if_neg (by decide)] at hstep
          omega
      | true =>
          rw [List.countP_cons_of_pos hcall, Nat.mul_succ]
          rw [hcall, if_pos rfl] at hstep
          omega

section Runs

instance (s : ShareSystem P cpuNum) : ∀ act, Decidable (s.Proper act)
  | .map c mpr => inferInstanceAs (Decidable (mpr.WellFormed ∧
      (∀ d, (s.vmpu d).ApartFrom mpr) ∧ 0 < (s.vmpu c).freeEntries.card))
  | .unmapRange c vaddr size => inferInstanceAs
      (Decidable ((MpRegion.ofRange vaddr size).WellFormed ∧ 0 < (s.vmpu c).freeEntries.card))
  | .deliver c => inferInstanceAs (Decidable (0 < (s.vmpu c).freeEntries.card))

instance (s : ShareSystem P cpuNum) : ∀ act, Decidable (s.UpToDate act)
  | .map c mpr => inferInstanceAs (Decidable ((∀ m ∈ s.queue c, mpr.Apart m.2) ∧
      ∀ d, d ≠ c → ∀ m ∈ s.queue d, m.1 = .removeRegion → m.2.Within mpr →
        m.2 ∉ (s.vmpu d).regions ∧ (.insertRegion, m.2) ∉ s.queue d))
  | .unmapRange c vaddr size => inferInstanceAs (Decidable (∀ e ∈ (s.vmpu c).regions,
      (MpRegion.ofRange vaddr size).Within e → ∀ m ∈ s.queue c, e.Apart m.2))
  | .deliver _ => isTrue trivial

instance (s : ShareSystem P cpuNum) : Decidable s.Quiet :=
  inferInstanceAs (Decidable (∀ _, _))

instance (s : ShareSystem P cpuNum) (c : Fin cpuNum) (a : ℕ) : Decidable (s.GlobalCovers c a) :=
  inferInstanceAs (Decidable (∃ r ∈ (s.vmpu c).regions, r.asSec = .hypGlobal ∧
    (r.base.toNat ≤ a ∧ a < r.limit)))

def apartMpu : PhysMpu (Finset MpRegion) where
  mpuMap p _ r := if ∀ q ∈ p, r.Apart q then (true, insert r p) else (false, p)
  mpuUnmap p _ r := (true, p.erase r)

theorem keeps_apartMpu : apartMpu.Keeps id where
  map p r _ hapart := by
    have hmap : apartMpu.mpuMap p .hyp r = (true, insert r p) := if_pos hapart
    rw [hmap]
    exact ⟨rfl, rfl⟩
  unmap _ _ _ := rfl

/-- CPUs that run no VM yet. -/
def idleCpus {cpuNum : ℕ} (hle : cpuNum ≤ 64) : SharePlatform cpuNum where
  cpuNum_le := hle
  vmCpus _ := none
  own _ _ h := nomatch h
  same _ _ _ h := nomatch h

def twoEmpty : ShareSystem (Finset MpRegion) 2 := ⟨fun _ => Vmpu.asInit, fun _ => ∅, fun _ => [], 0⟩

theorem settled_twoEmpty : twoEmpty.Settled (idleCpus (by decide)) id := by
  have hnone : Vmpu.regions Vmpu.asInit = ∅ := by
    rw [Finset.eq_empty_iff_forall_notMem]
    intro r hr
    obtain ⟨i, hi, -⟩ := Vmpu.mem_regions.mp hr
    exact nomatch hi
  refine ⟨fun _ => rfl,
    fun _ => ⟨MemState.granular_asInit, fun _ _ _ hi => (nomatch hi), hnone.symm⟩,
    fun _ _ a ha => ?_, fun _ a ha => ?_⟩
  · have ha : a ∈ Vmpu.regions Vmpu.asInit := ha
    rw [hnone] at ha
    cases ha
  · have ha : a ∈ Vmpu.regions Vmpu.asInit := ha
    rw [hnone] at ha
    cases ha

def granules (first num : ℕ) : MpRegion :=
  ⟨BitVec.ofNat 64 (64 * first), BitVec.ofNat 64 (64 * num), .invalid, .hypGlobal⟩

def splitRun (a b : Fin 2) : List (ShareAct 2) :=
  [.map a (granules 0 3), .unmapRange a 0#64 64#64, .deliver b, .deliver b, .deliver b,
    .deliver a]

/-- CPU 0 maps, unmaps and maps again the first granule. The removal comes back to it as an
echo and takes the granule out once more, of which CPU 1 hears only after a call of its own. -/
def echoRun (a b : Fin 2) : List (ShareAct 2) :=
  [.map a (granules 0 1), .deliver b, .unmapRange a 0#64 64#64, .deliver b,
    .map a (granules 0 3), .deliver a, .deliver b,
    .unmapRange b 0#64 128#64, .deliver a, .deliver a, .deliver b, .deliver b,
    .unmapRange a 64#64 128#64, .deliver b, .deliver a]

end Runs

end ShareSystem

end BaoHypervisor
