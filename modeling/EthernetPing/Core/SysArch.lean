import Mathlib.Data.List.Induction
import Mathlib.Tactic

/-!
# Critical sections

`sys_arch_protect` and `sys_arch_unprotect` are the port's implementation of
`SYS_ARCH_PROTECT` and `SYS_ARCH_UNPROTECT`. The level that the first returns is a constant,
and the second ignores it, so that what they leave behind depends on the last call only.
-/

namespace EthernetPing

/-- `sys_prot_t` -/
abbrev SysProt := UInt32

/-- Whether the processor takes interrupts (`PRIMASK` is clear). -/
structure Cpu where
  irqEnabled : Bool
  deriving DecidableEq

def sysArchProtect (_ : Cpu) : SysProt × Cpu := (0, ⟨false⟩)

def sysArchUnprotect (_ : SysProt) (_ : Cpu) : Cpu := ⟨true⟩

inductive SysCall where
  | protect
  | unprotect
  deriving DecidableEq

/-- The processor, and the levels that the open sections have to restore, innermost first. -/
structure Sections where
  cpu : Cpu
  levels : List SysProt

/-- One call. An unprotect is passed the level that its matching protect returned. -/
def Sections.call (s : Sections) : SysCall → Sections
  | .protect => ⟨(sysArchProtect s.cpu).2, (sysArchProtect s.cpu).1 :: s.levels⟩
  | .unprotect =>
    match s.levels with
    | [] => s
    | pval :: levels => ⟨sysArchUnprotect pval s.cpu, levels⟩

/-- The state after the calls, no section being open before the first. -/
def Sections.after (cpu : Cpu) (calls : List SysCall) : Sections :=
  calls.foldl Sections.call ⟨cpu, []⟩

/-- The number of sections that are open after the calls. -/
def openSections (calls : List SysCall) : ℕ := calls.count .protect - calls.count .unprotect

/-- No section is closed before it is opened, and none is left open. -/
structure WellBracketed (calls : List SysCall) : Prop where
  opened : ∀ pre, pre <+: calls → pre.count .unprotect ≤ pre.count .protect
  closed : openSections calls = 0

/-- The sections do not contain one another. -/
def Flat (calls : List SysCall) : Prop := ∀ pre, pre <+: calls → openSections pre ≤ 1

/-- What `SYS_ARCH_PROTECT` asks of the port, at every point of the calls. -/
def Protects (cpu : Cpu) (calls : List SysCall) : Prop := ∀ pre, pre <+: calls →
  (0 < openSections pre → (Sections.after cpu pre).cpu.irqEnabled = false) ∧
    (openSections pre = 0 → (Sections.after cpu pre).cpu = cpu)

section Nesting

variable {cpu : Cpu} {calls pre : List SysCall}

theorem WellBracketed.closes_open (h : WellBracketed calls) (hpre : pre ++ [.unprotect] <+: calls) :
    0 < openSections pre := by
  have hle := h.opened _ hpre
  simp [List.count_append] at hle
  rw [openSections]
  omega

theorem openSections_protect (h : pre.count .unprotect ≤ pre.count .protect) :
    openSections (pre ++ [.protect]) = openSections pre + 1 := by
  simp [openSections, List.count_append]
  omega

theorem openSections_unprotect (pre : List SysCall) :
    openSections (pre ++ [.unprotect]) = openSections pre - 1 := by
  simp [openSections, List.count_append]
  omega

theorem levels_unprotect (s : Sections) : (s.call .unprotect).levels = s.levels.tail := by
  obtain ⟨cpu, levels⟩ := s
  cases levels <;> rfl

theorem length_levels (h : ∀ q, q <+: pre → q.count .unprotect ≤ q.count .protect) :
    (Sections.after cpu pre).levels.length = openSections pre := by
  induction pre using List.reverseRecOn with
  | nil => rfl
  | append_singleton pre c ih =>
    have hlen := ih fun q hq => h q (hq.trans (List.prefix_append pre [c]))
    rw [Sections.after, List.foldl_append, ← Sections.after]
    cases c with
    | protect =>
      rw [openSections_protect (h pre (List.prefix_append pre _))]
      exact congrArg (· + 1) hlen
    | unprotect =>
      rw [openSections_unprotect, ← hlen, ← List.length_tail]
      exact congrArg List.length (levels_unprotect _)

theorem after_protect (cpu : Cpu) (pre : List SysCall) :
    (Sections.after cpu (pre ++ [.protect])).cpu = ⟨false⟩ := by
  rw [Sections.after, List.foldl_append]
  rfl

/-- Whichever section is closed, the interrupts are enabled. -/
theorem WellBracketed.after_unprotect (h : WellBracketed calls)
    (hpre : pre ++ [.unprotect] <+: calls) :
    (Sections.after cpu (pre ++ [.unprotect])).cpu = ⟨true⟩ := by
  have hlen : (Sections.after cpu pre).levels.length = openSections pre :=
    length_levels fun q hq => h.opened q ((hq.trans (List.prefix_append pre _)).trans hpre)
  have hopen := h.closes_open hpre
  rw [Sections.after, List.foldl_append, ← Sections.after]
  simp only [List.foldl_cons, List.foldl_nil, Sections.call]
  cases hlevels : (Sections.after cpu pre).levels with
  | nil =>
    rw [← hlen, hlevels] at hopen
    cases hopen
  | cons pval levels => rfl

theorem WellBracketed.exists_unprotect (h : WellBracketed calls) (hne : calls ≠ []) :
    ∃ pre, calls = pre ++ [.unprotect] := by
  induction calls using List.reverseRecOn with
  | nil => exact absurd rfl hne
  | append_singleton pre c _ =>
    cases c with
    | protect =>
      have hle := h.opened pre (List.prefix_append pre _)
      have hclosed := h.closed
      rw [openSections_protect hle] at hclosed
      cases hclosed
    | unprotect => exact ⟨pre, rfl⟩

/-- Sections that protect do not contain one another: read from the end, a section that is closed
inside another one would leave the interrupts enabled there. -/
theorem Protects.openSections_le (hp : Protects cpu calls) (h : WellBracketed calls)
    (suf : List SysCall) : ∀ pre, pre ++ suf = calls → openSections pre ≤ 1 := by
  induction suf with
  | nil =>
    rintro pre rfl
    rw [← List.append_nil pre, h.closed]
    exact zero_le_one
  | cons c suf ih =>
    intro pre hcalls
    have hpre : pre ++ [c] <+: calls := ⟨suf, by simpa using hcalls⟩
    have hnext := ih (pre ++ [c]) (by simpa using hcalls)
    cases c with
    | protect =>
      have hle := h.opened pre ((List.prefix_append pre _).trans hpre)
      rw [openSections_protect hle] at hnext
      omega
    | unprotect =>
      have hinside := (hp _ hpre).1
      rw [h.after_unprotect hpre] at hinside
      rw [openSections_unprotect] at hnext hinside
      by_contra hdeep
      exact Bool.noConfusion (hinside (by omega))

end Nesting

/-- The sections protect, whatever the initial state, exactly if there is none, or interrupts are
enabled at first and no section is opened inside another one. -/
theorem sysArch_protects_iff {cpu : Cpu} {calls : List SysCall} (h : WellBracketed calls) :
    Protects cpu calls ↔ calls = [] ∨ cpu.irqEnabled = true ∧ Flat calls := by
  constructor
  · intro hp
    by_cases hne : calls = []
    · exact .inl hne
    · obtain ⟨last, hlast⟩ := h.exists_unprotect hne
      have hpre : last ++ [.unprotect] <+: calls := hlast ▸ List.prefix_refl _
      have hend := (hp _ hpre).2 (hlast ▸ h.closed)
      rw [h.after_unprotect hpre] at hend
      refine .inr ⟨hend ▸ rfl, ?_⟩
      rintro pre ⟨suf, hcalls⟩
      exact hp.openSections_le h suf pre hcalls
  · rintro hcond pre hpre
    rcases List.eq_nil_or_concat' pre with rfl | ⟨q, c, rfl⟩
    · exact ⟨fun hopen => absurd hopen (lt_irrefl 0), fun _ => rfl⟩
    · have hq : q <+: calls := (List.prefix_append q [c]).trans hpre
      cases c with
      | protect =>
        rw [after_protect, openSections_protect (h.opened q hq)]
        exact ⟨fun _ => rfl, fun hopen => absurd hopen (Nat.succ_ne_zero _)⟩
      | unprotect =>
        rw [h.after_unprotect hpre, openSections_unprotect]
        rcases hcond with rfl | ⟨henabled, hflat⟩
        · exact absurd (List.prefix_nil.mp hpre) (by simp)
        · have hone := hflat q hq
          refine ⟨fun hopen => by omega, fun _ => ?_⟩
          cases cpu
          exact congrArg Cpu.mk henabled.symm

theorem wellBracketed_nested :
    WellBracketed [.protect, .protect, .unprotect, .unprotect] where
  opened pre hpre := by
    rw [← List.mem_inits] at hpre
    revert pre
    decide
  closed := rfl

theorem sysArch_protects_iff_nested :
    Protects ⟨true⟩ [.protect, .protect, .unprotect, .unprotect] ↔
      [SysCall.protect, .protect, .unprotect, .unprotect] = [] ∨
        (⟨true⟩ : Cpu).irqEnabled = true ∧ Flat [.protect, .protect, .unprotect, .unprotect] :=
  sysArch_protects_iff wellBracketed_nested

/-- Closing the inner of two sections enables the interrupts inside the outer one. -/
theorem sysArch_not_protects :
    ¬ ∀ (cpu : Cpu) (calls : List SysCall), WellBracketed calls → Protects cpu calls := by
  intro h
  have hinside := (h ⟨true⟩ _ wellBracketed_nested [.protect, .protect, .unprotect] ⟨[_], rfl⟩).1
  exact absurd (hinside (by decide)) (by decide)

end EthernetPing
