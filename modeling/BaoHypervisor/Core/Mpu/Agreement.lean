import BaoHypervisor.Core.Mpu.Mem
import BaoHypervisor.Theory.Run
import Mathlib.Data.Finset.Basic

/-!
# Agreement on shared regions

Each CPU has a set of regions and a queue of messages, and handling a message inserts a
region into its set or removes one. The CPUs agree on what every set will be once the queues
are handled: `Agree E Q G` says that the sets `E` become the sets `G`, and that on the way
every inserted region finds room and every removed one is found as it is or not at all.

What keeps the agreement is that a message commutes with those that are queued where it
comes from, and that a removal which is still to be found, and so is still to be passed on,
is about a region within which nothing is to stay.
-/

namespace BaoHypervisor

/-- The payload of a `MEM_PROT_SYNC` message. -/
abbrev ShareMsg := ShareOp × MpRegion

def applyMsg (E : Finset MpRegion) : ShareMsg → Finset MpRegion
  | (.insertRegion, r) => insert r E
  | (.removeRegion, r) => E.erase r

def sendTo {κ : Type*} (shares : κ → AsSec → κ → Bool) (Q : κ → List ShareMsg) (c : κ)
    (m : ShareMsg) (d : κ) : List ShareMsg :=
  if shares c m.2.asSec d then Q d ++ [m] else Q d

def Gone {κ : Type*} (G : κ → Finset MpRegion) (e : MpRegion) : Prop :=
  ∀ c, ∀ g ∈ G c, ¬ e.Within g

/-- The message can be handled: the region to insert finds room, the region to remove lies
within no other, and if it is found then it is gone for good. -/
def Ready {κ : Type*} (G : κ → Finset MpRegion) (E : Finset MpRegion) : ShareMsg → Prop
  | (.insertRegion, r) => ∀ q ∈ E, r.Apart q
  | (.removeRegion, e) => (∀ q ∈ E, e.Within q → q = e) ∧ (e ∈ E → Gone G e)

/-- The CPUs agree that their sets will be `G`. -/
structure Agree {κ : Type*} (shares : κ → AsSec → κ → Bool) (E : κ → Finset MpRegion)
    (Q : κ → List ShareMsg) (G : κ → Finset MpRegion) : Prop where
  wf : ∀ c, ∀ r ∈ E c, r.WellFormed
  wfMsg : ∀ c, ∀ m ∈ Q c, m.2.WellFormed
  drained : ∀ c, Run.exec applyMsg (E c) (Q c) = G c
  ready : ∀ c, Run.Along applyMsg (Ready G) (E c) (Q c)
  apart : ∀ c d, ∀ a ∈ G c, ∀ b ∈ G d, a = b ∨ a.Apart b
  shared : ∀ c, ∀ a ∈ G c, ∀ d, a ∈ G d ↔ d = c ∨ shares c a.asSec d = true
  present : ∀ c, ∀ a ∈ G c, ∃ d, a ∈ E d

/-- Messages about regions that are apart may be handled in any order. -/
theorem applyMsg_comm {E : Finset MpRegion} {m m' : ShareMsg} (hwf : m.2.WellFormed)
    (h : m.2.Apart m'.2) :
    applyMsg (applyMsg E m) m' = applyMsg (applyMsg E m') m := by
  obtain ⟨op, r⟩ := m
  obtain ⟨op', q⟩ := m'
  have hne : r ≠ q := by
    rintro rfl
    exact (MpRegion.Within.refl r).not_apart hwf h
  cases op with
  | insertRegion =>
      cases op' with
      | insertRegion => exact Finset.insert_comm q r E
      | removeRegion => exact Finset.erase_insert_of_ne hne
  | removeRegion =>
      cases op' with
      | insertRegion => exact (Finset.erase_insert_of_ne hne.symm).symm
      | removeRegion => exact Finset.erase_right_comm

theorem exec_applyMsg_comm {E : Finset MpRegion} {m : ShareMsg} {Q : List ShareMsg}
    (hwf : m.2.WellFormed) (h : ∀ m' ∈ Q, m.2.Apart m'.2) :
    Run.exec applyMsg (applyMsg E m) Q = applyMsg (Run.exec applyMsg E Q) m := by
  induction Q generalizing E with
  | nil => rfl
  | cons m' Q ih =>
      rw [List.forall_mem_cons] at h
      rw [Run.exec_cons, Run.exec_cons, applyMsg_comm hwf h.1, ih h.2]

theorem mem_exec_applyMsg {E : Finset MpRegion} {Q : List ShareMsg} {r : MpRegion}
    (h : r ∈ Run.exec applyMsg E Q) : r ∈ E ∨ (ShareOp.insertRegion, r) ∈ Q := by
  induction Q generalizing E with
  | nil => exact .inl h
  | cons m Q ih =>
      rcases ih h with hr | hr
      · obtain ⟨op, q⟩ := m
        cases op with
        | insertRegion =>
            rcases Finset.mem_insert.mp hr with rfl | hr
            · exact .inr List.mem_cons_self
            · exact .inl hr
        | removeRegion => exact .inl (Finset.mem_of_mem_erase hr)
      · exact .inr (List.mem_cons_of_mem m hr)

theorem mem_exec_applyMsg_iff {E : Finset MpRegion} {Q : List ShareMsg} {r : MpRegion}
    (hwf : r.WellFormed) (h : ∀ m ∈ Q, r.Apart m.2) :
    r ∈ Run.exec applyMsg E Q ↔ r ∈ E := by
  induction Q generalizing E with
  | nil => rfl
  | cons m Q ih =>
      rw [List.forall_mem_cons] at h
      have hne : r ≠ m.2 := by
        intro heq
        exact (MpRegion.Within.refl r).not_apart hwf (heq ▸ h.1)
      rw [Run.exec_cons, ih h.2]
      obtain ⟨op, q⟩ := m
      cases op with
      | insertRegion => exact Finset.mem_insert.trans (or_iff_right hne)
      | removeRegion => exact Finset.mem_erase.trans (and_iff_right hne)

section Ready

variable {κ : Type*} {G G' : κ → Finset MpRegion} {E : Finset MpRegion} {Q : List ShareMsg}
  {m m' : ShareMsg}

/-- What is handled before does not matter when it is about a region that is apart. -/
theorem Ready.of_apart (h : Ready G E m') (hwf : m'.2.WellFormed) (hapart : m.2.Apart m'.2) :
    Ready G (applyMsg E m) m' := by
  obtain ⟨op, r⟩ := m
  obtain ⟨op', q⟩ := m'
  cases op with
  | insertRegion =>
      cases op' with
      | insertRegion =>
          intro p hp
          rcases Finset.mem_insert.mp hp with rfl | hp
          · exact hapart.symm
          · exact h p hp
      | removeRegion =>
          refine ⟨fun p hp hwithin => ?_, fun hq => ?_⟩
          · rcases Finset.mem_insert.mp hp with rfl | hp
            · exact absurd hapart.symm (hwithin.not_apart hwf)
            · exact h.1 p hp hwithin
          · rcases Finset.mem_insert.mp hq with rfl | hq
            · exact absurd hapart ((MpRegion.Within.refl q).not_apart hwf)
            · exact h.2 hq
  | removeRegion =>
      cases op' with
      | insertRegion => exact fun p hp => h p (Finset.mem_of_mem_erase hp)
      | removeRegion =>
          exact ⟨fun p hp => h.1 p (Finset.mem_of_mem_erase hp),
            fun hq => h.2 (Finset.mem_of_mem_erase hq)⟩

theorem along_ready_applyMsg (h : Run.Along applyMsg (Ready G) E Q) (hm : m.2.WellFormed)
    (hwf : ∀ m' ∈ Q, m'.2.WellFormed) (hapart : ∀ m' ∈ Q, m.2.Apart m'.2) :
    Run.Along applyMsg (Ready G) (applyMsg E m) Q := by
  induction Q generalizing E with
  | nil => trivial
  | cons m' Q ih =>
      rw [List.forall_mem_cons] at hwf hapart
      refine ⟨h.1.of_apart hwf.1 hapart.1, ?_⟩
      rw [applyMsg_comm hm hapart.1]
      exact ih h.2 hwf.2 hapart.2

def ToFind (P : MpRegion → Prop) (E : Finset MpRegion) : ShareMsg → Prop
  | (.insertRegion, _) => True
  | (.removeRegion, e) => e ∈ E → P e

theorem along_ready_of_toFind (h : Run.Along applyMsg (Ready G) E Q)
    (hfind : Run.Along applyMsg (ToFind fun e => Gone G e → Gone G' e) E Q) :
    Run.Along applyMsg (Ready G') E Q := by
  induction Q generalizing E with
  | nil => trivial
  | cons m Q ih =>
      refine ⟨?_, ih h.2 hfind.2⟩
      obtain ⟨op, r⟩ := m
      cases op with
      | insertRegion => exact h.1
      | removeRegion => exact ⟨h.1.1, fun hr => hfind.1 hr (h.1.2 hr)⟩

theorem along_toFind_of_forall {P : MpRegion → Prop}
    (h : ∀ e, (ShareOp.removeRegion, e) ∈ Q →
      (e ∈ E ∨ (ShareOp.insertRegion, e) ∈ Q) → P e) :
    Run.Along applyMsg (ToFind P) E Q := by
  induction Q generalizing E with
  | nil => trivial
  | cons m Q ih =>
      obtain ⟨op, r⟩ := m
      cases op with
      | insertRegion =>
          refine ⟨trivial, ih fun e he hfound => ?_⟩
          refine h e (List.mem_cons_of_mem _ he) ?_
          rcases hfound with hmem | hmem
          · rcases Finset.mem_insert.mp hmem with rfl | hmem
            · exact .inr List.mem_cons_self
            · exact .inl hmem
          · exact .inr (List.mem_cons_of_mem _ hmem)
      | removeRegion =>
          refine ⟨fun hr => h r List.mem_cons_self (.inl hr), ih fun e he hfound => ?_⟩
          refine h e (List.mem_cons_of_mem _ he) ?_
          exact hfound.imp Finset.mem_of_mem_erase (List.mem_cons_of_mem _)

theorem along_gone_of_ready (h : Run.Along applyMsg (Ready G) E Q) :
    Run.Along applyMsg (ToFind (Gone G)) E Q := by
  refine h.mono fun E m hm => ?_
  obtain ⟨op, r⟩ := m
  cases op with
  | insertRegion => trivial
  | removeRegion => exact hm.2

end Ready

namespace Agree

variable {κ : Type*} [DecidableEq κ] {shares : κ → AsSec → κ → Bool}
  {E : κ → Finset MpRegion} {Q : κ → List ShareMsg} {G : κ → Finset MpRegion} {c : κ}

/-- What the sets will be when a CPU and those that share the section have handled a
message. -/
def after (shares : κ → AsSec → κ → Bool) (G : κ → Finset MpRegion) (c : κ) (m : ShareMsg)
    (d : κ) : Finset MpRegion :=
  if d = c ∨ shares c m.2.asSec d = true then applyMsg (G d) m else G d

theorem drained_after (h : Agree shares E Q G) (hirrefl : ∀ c sec, shares c sec c = false)
    {m : ShareMsg} (hwf : m.2.WellFormed) (hapart : ∀ m' ∈ Q c, m.2.Apart m'.2) (d : κ) :
    Run.exec applyMsg (Function.update E c (applyMsg (E c) m) d) (sendTo shares Q c m d) =
      after shares G c m d := by
  by_cases hd : d = c
  · subst hd
    have hown : ¬ shares d m.2.asSec d = true := by simp [hirrefl]
    rw [Function.update_self, sendTo, if_neg hown, exec_applyMsg_comm hwf hapart, h.drained,
      after, if_pos (.inl rfl)]
  · rw [Function.update_of_ne hd]
    by_cases hshares : shares c m.2.asSec d = true
    · rw [sendTo, if_pos hshares, Run.exec_concat, h.drained, after, if_pos (.inr hshares)]
    · rw [sendTo, if_neg hshares, h.drained, after, if_neg (by simp [hd, hshares])]

/-- The queues stay ready when the message is, and when what is to be found stays gone. -/
theorem ready_after (h : Agree shares E Q G) (hirrefl : ∀ c sec, shares c sec c = false)
    {m : ShareMsg} {G' : κ → Finset MpRegion} (hwf : m.2.WellFormed)
    (hapart : ∀ m' ∈ Q c, m.2.Apart m'.2)
    (hready : ∀ d, shares c m.2.asSec d = true → Ready G' (G d) m)
    (hfind : ∀ d, Run.Along applyMsg (ToFind fun e => Gone G e → Gone G' e) (E d) (Q d)) (d : κ) :
    Run.Along applyMsg (Ready G') (Function.update E c (applyMsg (E c) m) d)
      (sendTo shares Q c m d) := by
  have hqueue := along_ready_of_toFind (h.ready d) (hfind d)
  by_cases hd : d = c
  · subst hd
    have hown : ¬ shares d m.2.asSec d = true := by simp [hirrefl]
    rw [Function.update_self, sendTo, if_neg hown]
    exact along_ready_applyMsg hqueue hwf (h.wfMsg d) hapart
  · rw [Function.update_of_ne hd]
    by_cases hshares : shares c m.2.asSec d = true
    · rw [sendTo, if_pos hshares, Run.along_append]
      refine ⟨hqueue, ?_, trivial⟩
      rw [h.drained]
      exact hready d hshares
    · rw [sendTo, if_neg hshares]
      exact hqueue

omit [DecidableEq κ] in
theorem wfMsg_sendTo (h : Agree shares E Q G) {m : ShareMsg} (hwf : m.2.WellFormed) (d : κ) :
    ∀ m' ∈ sendTo shares Q c m d, m'.2.WellFormed := by
  intro m' hm'
  rw [sendTo] at hm'
  split at hm'
  · rcases List.mem_append.mp hm' with hm' | hm'
    · exact h.wfMsg d m' hm'
    · rw [List.mem_singleton.mp hm']
      exact hwf
  · exact h.wfMsg d m' hm'

/-- A CPU inserts a region that finds room everywhere. It has no message about a part of it,
and no other CPU is still to find a region within it. -/
theorem insert (h : Agree shares E Q G) (hirrefl : ∀ c sec, shares c sec c = false)
    (hequiv : ∀ sec, Equivalence fun c d => d = c ∨ shares c sec d = true) {r : MpRegion}
    (hwf : r.WellFormed) (hroom : ∀ d, ∀ q ∈ G d, r.Apart q)
    (hapart : ∀ m ∈ Q c, r.Apart m.2)
    (hfind : ∀ d, d ≠ c → Run.Along applyMsg (ToFind fun e => ¬ e.Within r) (E d) (Q d)) :
    Agree shares (Function.update E c (applyMsg (E c) (.insertRegion, r)))
      (sendTo shares Q c (.insertRegion, r)) (after shares G c (.insertRegion, r)) := by
  have hmem : ∀ d a, a ∈ after shares G c (.insertRegion, r) d ↔
      a ∈ G d ∨ a = r ∧ (d = c ∨ shares c r.asSec d = true) := by
    intro d a
    rw [after]
    split
    · rename_i hd
      exact Finset.mem_insert.trans (or_comm.trans (or_congr_right (and_iff_left hd).symm))
    · rename_i hd
      exact (or_iff_left fun h => hd h.2).symm
  have hnot : ∀ d, r ∉ G d := fun d hr => (MpRegion.Within.refl r).not_apart hwf (hroom d r hr)
  refine ⟨fun d q hq => ?_, fun d => h.wfMsg_sendTo hwf d, h.drained_after hirrefl hwf hapart,
    h.ready_after hirrefl hwf hapart (fun d _ => hroom d) fun d => ?_, fun d d' a ha b hb => ?_,
    fun d a ha d' => ?_, fun d a ha => ?_⟩
  · by_cases hd : d = c
    · subst hd
      rw [Function.update_self] at hq
      rcases Finset.mem_insert.mp hq with rfl | hq
      · exact hwf
      · exact h.wf d q hq
    · rw [Function.update_of_ne hd] at hq
      exact h.wf d q hq
  · have hkeep : ∀ e, ¬ e.Within r → Gone G e → Gone (after shares G c (.insertRegion, r)) e := by
      intro e he hgone d' g hg
      rcases (hmem d' g).mp hg with hg | ⟨rfl, -⟩
      · exact hgone d' g hg
      · exact he
    have halong : Run.Along applyMsg (ToFind fun e => ¬ e.Within r) (E d) (Q d) := by
      by_cases hd : d = c
      · subst hd
        refine along_toFind_of_forall fun e he _ hwithin => ?_
        exact hwithin.not_apart (h.wfMsg d _ he) (hapart _ he).symm
      · exact hfind d hd
    refine halong.mono fun E m hm => ?_
    obtain ⟨op, e⟩ := m
    cases op with
    | insertRegion => trivial
    | removeRegion => exact fun he => hkeep e (hm he)
  · rcases (hmem d a).mp ha with haG | ⟨rfl, -⟩
    · rcases (hmem d' b).mp hb with hbG | ⟨rfl, -⟩
      · exact h.apart d d' a haG b hbG
      · exact .inr (hroom d a haG).symm
    · rcases (hmem d' b).mp hb with hbG | ⟨rfl, -⟩
      · exact .inr (hroom d' b hbG)
      · exact .inl rfl
  · rcases (hmem d a).mp ha with hold | ⟨rfl, hd⟩
    · have hne : a ≠ r := fun heq => hnot d (heq ▸ hold)
      rw [hmem, h.shared d a hold d']
      exact or_iff_left fun hr => hne hr.1
    · have hclass := hequiv a.asSec
      rw [hmem]
      refine (or_iff_right (hnot d')).trans
        ((and_iff_right rfl).trans ⟨fun hd' => ?_, fun hd' => ?_⟩)
      · exact hclass.trans (hclass.symm hd) hd'
      · exact hclass.trans hd hd'
  · rcases (hmem d a).mp ha with hold | ⟨rfl, -⟩
    · obtain ⟨d', hd'⟩ := h.present d a hold
      refine ⟨d', ?_⟩
      by_cases hdc : d' = c
      · subst hdc
        rw [Function.update_self]
        exact Finset.mem_insert_of_mem hd'
      · rwa [Function.update_of_ne hdc]
    · refine ⟨c, ?_⟩
      rw [Function.update_self]
      exact Finset.mem_insert_self a _

/-- A CPU removes a region of its own that it has no message about. -/
theorem remove (h : Agree shares E Q G) (hirrefl : ∀ c sec, shares c sec c = false)
    {e : MpRegion} (he : e ∈ E c) (hapart : ∀ m ∈ Q c, e.Apart m.2) :
    Agree shares (Function.update E c (applyMsg (E c) (.removeRegion, e)))
      (sendTo shares Q c (.removeRegion, e)) (after shares G c (.removeRegion, e)) := by
  have hwf := h.wf c e he
  have heG : e ∈ G c := by
    rw [← h.drained c]
    exact (mem_exec_applyMsg_iff hwf hapart).mpr he
  have hmem : ∀ d a, a ∈ after shares G c (.removeRegion, e) d ↔ a ∈ G d ∧ a ≠ e := by
    intro d a
    rw [after]
    split
    · exact Finset.mem_erase.trans and_comm
    · rename_i hd
      refine (and_iff_left_of_imp fun ha => ?_).symm
      rintro rfl
      exact hd ((h.shared c a heG d).mp ha)
  have hgone : Gone (after shares G c (.removeRegion, e)) e := by
    intro d g hg hwithin
    obtain ⟨hg, hne⟩ := (hmem d g).mp hg
    rcases h.apart c d e heG g hg with rfl | hapart
    · exact hne rfl
    · exact hwithin.not_apart hwf hapart
  refine ⟨fun d q hq => ?_, fun d => h.wfMsg_sendTo hwf d, h.drained_after hirrefl hwf hapart,
    h.ready_after hirrefl hwf hapart (fun d _ => ⟨fun q hq hwithin => ?_, fun _ => hgone⟩)
      fun d => ?_, fun d d' a ha b hb => ?_, fun d a ha d' => ?_, fun d a ha => ?_⟩
  · by_cases hd : d = c
    · subst hd
      rw [Function.update_self] at hq
      exact h.wf d q (Finset.mem_of_mem_erase hq)
    · rw [Function.update_of_ne hd] at hq
      exact h.wf d q hq
  · rcases h.apart c d e heG q hq with heq | hapart
    · exact heq.symm
    · exact absurd hapart (hwithin.not_apart hwf)
  · refine along_toFind_of_forall fun x _ _ hgone d' g hg => ?_
    exact hgone d' g ((hmem d' g).mp hg).1
  · exact h.apart d d' a ((hmem d a).mp ha).1 b ((hmem d' b).mp hb).1
  · obtain ⟨ha, hne⟩ := (hmem d a).mp ha
    rw [hmem, h.shared d a ha d']
    exact and_iff_left hne
  · obtain ⟨ha, hne⟩ := (hmem d a).mp ha
    obtain ⟨d', hd'⟩ := h.present d a ha
    refine ⟨d', ?_⟩
    by_cases hdc : d' = c
    · subst hdc
      rw [Function.update_self]
      exact Finset.mem_erase.mpr ⟨hne, hd'⟩
    · rwa [Function.update_of_ne hdc]

/-- A CPU handles its first message. If it finds the region that it removes, it sends the
message on, to no effect. -/
theorem deliver (h : Agree shares E Q G) {m : ShareMsg} {rest : List ShareMsg}
    (hQ : Q c = m :: rest) {Q' : κ → List ShareMsg} (hQc : Q' c = rest)
    (hQ' : ∀ d, d ≠ c → Q' d = Q d ∨ m.1 = .removeRegion ∧ m.2 ∈ E c ∧ Q' d = Q d ++ [m]) :
    Agree shares (Function.update E c (applyMsg (E c) m)) Q' G := by
  have hready := h.ready c
  have hdrained := h.drained c
  have hwf := h.wfMsg c
  rw [hQ] at hready hdrained hwf
  rw [List.forall_mem_cons] at hwf
  have hgone : m.1 = .removeRegion → m.2 ∈ E c → Gone G m.2 := by
    obtain ⟨op, e⟩ := m
    rintro rfl he
    exact hready.1.2 he
  refine ⟨fun d q hq => ?_, fun d => ?_, fun d => ?_, fun d => ?_, h.apart, h.shared,
    fun d a ha => ?_⟩
  · by_cases hd : d = c
    · subst hd
      rw [Function.update_self] at hq
      obtain ⟨op, r⟩ := m
      cases op with
      | insertRegion =>
          rcases Finset.mem_insert.mp hq with rfl | hq
          · exact hwf.1
          · exact h.wf d q hq
      | removeRegion => exact h.wf d q (Finset.mem_of_mem_erase hq)
    · rw [Function.update_of_ne hd] at hq
      exact h.wf d q hq
  · by_cases hd : d = c
    · subst hd
      rw [hQc]
      exact hwf.2
    · rcases hQ' d hd with heq | ⟨-, -, heq⟩
      · rw [heq]
        exact h.wfMsg d
      · rw [heq]
        intro m' hm'
        rcases List.mem_append.mp hm' with hm' | hm'
        · exact h.wfMsg d m' hm'
        · rw [List.mem_singleton.mp hm']
          exact hwf.1
  · by_cases hd : d = c
    · subst hd
      rw [Function.update_self, hQc]
      exact hdrained
    · rw [Function.update_of_ne hd]
      rcases hQ' d hd with heq | ⟨hop, hmem, heq⟩
      · rw [heq]
        exact h.drained d
      · rw [heq, Run.exec_concat, h.drained d]
        obtain ⟨op, e⟩ := m
        obtain rfl : op = .removeRegion := hop
        refine Finset.erase_eq_of_notMem fun he => ?_
        exact hgone rfl hmem d e he (MpRegion.Within.refl e)
  · by_cases hd : d = c
    · subst hd
      rw [Function.update_self, hQc]
      exact hready.2
    · rw [Function.update_of_ne hd]
      rcases hQ' d hd with heq | ⟨hop, hmem, heq⟩
      · rw [heq]
        exact h.ready d
      · rw [heq, Run.along_append]
        refine ⟨h.ready d, ?_, trivial⟩
        rw [h.drained d]
        obtain ⟨op, e⟩ := m
        obtain rfl : op = .removeRegion := hop
        have hgone := hgone rfl hmem
        exact ⟨fun q hq hwithin => absurd hwithin (hgone d q hq), fun _ => hgone⟩
  · obtain ⟨d', hd'⟩ := h.present d a ha
    refine ⟨d', ?_⟩
    by_cases hdc : d' = c
    · subst hdc
      rw [Function.update_self]
      obtain ⟨op, r⟩ := m
      cases op with
      | insertRegion => exact Finset.mem_insert_of_mem hd'
      | removeRegion =>
          refine Finset.mem_erase.mpr ⟨?_, hd'⟩
          rintro rfl
          exact hgone rfl hd' d a ha (MpRegion.Within.refl a)
    · rwa [Function.update_of_ne hdc]

omit [DecidableEq κ] in
theorem sendTo_append {m : ShareMsg} (M : List ShareMsg) (d : κ) :
    sendTo shares Q c m d ++ M.filter (fun m => shares c m.2.asSec d) =
      Q d ++ (m :: M).filter fun m => shares c m.2.asSec d := by
  rw [sendTo, List.filter_cons]
  split <;> simp

/-- A CPU inserts regions that are apart, one after the other. -/
theorem insertAll (h : Agree shares E Q G) (hirrefl : ∀ c sec, shares c sec c = false)
    (hequiv : ∀ sec, Equivalence fun c d => d = c ∨ shares c sec d = true)
    {regs : List MpRegion} (hwf : ∀ r ∈ regs, r.WellFormed)
    (hroom : ∀ r ∈ regs, ∀ d, ∀ q ∈ G d, r.Apart q)
    (hpairwise : regs.Pairwise MpRegion.Apart) (hapart : ∀ r ∈ regs, ∀ m ∈ Q c, r.Apart m.2)
    (hfind : ∀ r ∈ regs, ∀ d, d ≠ c →
      Run.Along applyMsg (ToFind fun e => ¬ e.Within r) (E d) (Q d)) :
    ∃ G', Agree shares
      (Function.update E c
        (Run.exec applyMsg (E c) (regs.map fun r => (.insertRegion, r))))
      (fun d => Q d ++ (regs.map fun r => (ShareOp.insertRegion, r)).filter
        fun m => shares c m.2.asSec d) G' := by
  induction regs generalizing E Q G with
  | nil =>
      refine ⟨G, ?_⟩
      simpa using h
  | cons r regs ih =>
      rw [List.forall_mem_cons] at hwf hroom hapart hfind
      rw [List.pairwise_cons] at hpairwise
      have hnext := h.insert hirrefl hequiv hwf.1 hroom.1 hapart.1 hfind.1
      have hown : ∀ m ∈ sendTo shares Q c (.insertRegion, r) c, m ∈ Q c := by
        intro m hm
        rw [sendTo, hirrefl] at hm
        exact hm
      have hroom' : ∀ p ∈ regs, ∀ d, ∀ q ∈ after shares G c (.insertRegion, r) d, p.Apart q := by
        intro p hp d q hq
        rw [after] at hq
        split at hq
        · rcases Finset.mem_insert.mp hq with rfl | hq
          · exact (hpairwise.1 p hp).symm
          · exact hroom.2 p hp d q hq
        · exact hroom.2 p hp d q hq
      obtain ⟨G', hG'⟩ := ih hnext hwf.2 hroom' hpairwise.2
        (fun p hp m hm => hapart.2 p hp m (hown m hm)) fun p hp d hd => by
          rw [Function.update_of_ne hd, sendTo]
          split
          · exact Run.along_append.mpr ⟨hfind.2 p hp d hd, trivial, trivial⟩
          · exact hfind.2 p hp d hd
      refine ⟨G', ?_⟩
      simp only [sendTo_append, Function.update_self, Function.update_idem] at hG'
      exact hG'

/-- A CPU replaces a region of its own, that it has no message about, by pieces of it. -/
theorem replace (h : Agree shares E Q G) (hirrefl : ∀ c sec, shares c sec c = false)
    (hequiv : ∀ sec, Equivalence fun c d => d = c ∨ shares c sec d = true) {e : MpRegion}
    (he : e ∈ E c) (hapart : ∀ m ∈ Q c, e.Apart m.2) {regs : List MpRegion}
    (hwf : ∀ r ∈ regs, r.WellFormed) (hwithin : ∀ r ∈ regs, r.Within e ∧ ¬ e.Within r)
    (hpairwise : regs.Pairwise MpRegion.Apart) :
    ∃ G', Agree shares
      (Function.update E c (Run.exec applyMsg (E c)
        ((.removeRegion, e) :: regs.map fun r => (.insertRegion, r))))
      (fun d => Q d ++ ((ShareOp.removeRegion, e) :: regs.map fun r => (.insertRegion, r)).filter
        fun m => shares c m.2.asSec d) G' := by
  have heG : e ∈ G c := by
    rw [← h.drained c]
    exact (mem_exec_applyMsg_iff (h.wf c e he) hapart).mpr he
  have hown : ∀ m ∈ sendTo shares Q c (.removeRegion, e) c, m ∈ Q c := by
    intro m hm
    rw [sendTo, hirrefl] at hm
    exact hm
  have hafter : ∀ d, ∀ q ∈ after shares G c (.removeRegion, e) d, e.Apart q := by
    intro d q hq
    rw [after] at hq
    split at hq
    · obtain ⟨hne, hq⟩ := Finset.mem_erase.mp hq
      exact (h.apart c d e heG q hq).resolve_left fun heq => hne heq.symm
    · rename_i hd
      refine (h.apart c d e heG q hq).resolve_left ?_
      rintro rfl
      exact hd ((h.shared c e heG d).mp hq)
  obtain ⟨G', hG'⟩ := (h.remove hirrefl he hapart).insertAll hirrefl hequiv hwf
    (fun r hr d q hq => (hwithin r hr).1.apart (hafter d q hq)) hpairwise
    (fun r hr m hm => (hwithin r hr).1.apart (hapart m (hown m hm))) fun r hr d hd => by
      have hqueue : Run.Along applyMsg (ToFind fun x => ¬ x.Within r) (E d) (Q d) := by
        refine (along_gone_of_ready (h.ready d)).mono fun E m hm => ?_
        obtain ⟨op, x⟩ := m
        cases op with
        | insertRegion => trivial
        | removeRegion =>
            exact fun hx hxr => hm hx c e heG (hxr.trans (hwithin r hr).1)
      rw [Function.update_of_ne hd, sendTo]
      split
      · exact Run.along_append.mpr ⟨hqueue, fun _ => (hwithin r hr).2, trivial⟩
      · exact hqueue
  refine ⟨G', ?_⟩
  simp only [sendTo_append, Function.update_self, Function.update_idem] at hG'
  exact hG'

end Agree

end BaoHypervisor
