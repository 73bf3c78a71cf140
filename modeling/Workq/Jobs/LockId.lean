import Workq.Jobs.Statements

/-!
# Uniqueness of lock ids

The lock buffer holds 39 characters and its terminator, the four numbers and their separators
can have 41. Process, queue address and seconds are never cut on a host within the ranges
below, so that different queues and different seconds have different lock ids, but the last
digits of the microseconds may be.
-/

namespace Workq.Jobs

open Workq.Core

/-- The values on a Linux host: pids up to the kernel's limit, user-space addresses, and a
time of day. -/
structure Stamp.InRange (s : Stamp) : Prop where
  pid : 1 ≤ s.pidId ∧ s.pidId ≤ 4194304
  thread : 0 < s.threadId ∧ s.threadId < 2 ^ 47
  sec : 0 ≤ s.tvSec ∧ s.tvSec < 10 ^ 10
  usec : 0 ≤ s.tvUsec ∧ s.tvUsec < 10 ^ 6

/-- The number of digits before the microseconds. -/
def Stamp.digits (s : Stamp) : Nat :=
  (formatLong s.pidId).length + (formatLong s.threadId).length + (formatLong s.tvSec).length

theorem Stamp.InRange.digits_le {s : Stamp} (h : s.InRange) : s.digits ≤ 32 := by
  have hpid : (formatLong s.pidId).length ≤ 7 :=
    length_formatLong_le (by have := h.pid; omega) (by decide) (by have := h.pid; omega)
  have hthread : (formatLong s.threadId).length ≤ 15 :=
    length_formatLong_le h.thread.1.le (by decide) (h.thread.2.trans (by decide))
  have hsec : (formatLong s.tvSec).length ≤ 10 :=
    length_formatLong_le h.sec.1 (by decide) h.sec.2
  unfold Stamp.digits
  omega

/-- A lock id is the three fields before the microseconds, and as many digits of these as
the buffer still takes. -/
theorem lockid_eq_take (s : Stamp) :
    lockid s = (formatLong s.pidId ++ ':' :: (formatLong s.threadId ++
      ':' :: (formatLong s.tvSec ++ ':' :: formatLong s.tvUsec))).take 39 := by
  simp only [lockid, snprintf, List.append_assoc, List.cons_append]

/-- Equal lock ids come from the same process, queue and second, and agree in what is kept
of the microseconds. -/
theorem lockid_eq_iff {s t : Stamp} (hs : s.InRange) (ht : t.InRange) :
    lockid s = lockid t ↔
      s.pidId = t.pidId ∧ s.threadId = t.threadId ∧ s.tvSec = t.tvSec ∧
        (formatLong s.tvUsec).take (36 - s.digits) =
          (formatLong t.tvUsec).take (36 - s.digits) := by
  have hcolon : ∀ i, ':' ∉ formatLong i := notMem_formatLong (by decide) (by decide)
  have hsd := hs.digits_le
  have htd := ht.digits_le
  unfold Stamp.digits at hsd htd ⊢
  rw [lockid_eq_take, lockid_eq_take, take_append_separator_eq_iff (hcolon _) (hcolon _)
    (by omega) (by omega), formatLong_injective.eq_iff]
  refine and_congr_right ?_
  intro hpid
  rw [← hpid] at htd
  rw [take_append_separator_eq_iff (hcolon _) (hcolon _) (by omega) (by omega),
    formatLong_injective.eq_iff]
  refine and_congr_right ?_
  intro hthread
  rw [← hthread] at htd
  rw [take_append_separator_eq_iff (hcolon _) (hcolon _) (by omega) (by omega),
    formatLong_injective.eq_iff]
  refine and_congr_right ?_
  intro hsec
  rw [show 39 - (formatLong s.pidId).length - 1 - (formatLong s.threadId).length - 1 -
    (formatLong s.tvSec).length - 1 = 36 - ((formatLong s.pidId).length +
      (formatLong s.threadId).length + (formatLong s.tvSec).length) by omega]

/-- Two stamps with one lock id are equal, exactly if they come from different processes,
queues or seconds, or have the same microseconds, or if there is room for all digits of the
microseconds, or these differ within the digits there is room for. -/
theorem lockid_unique_iff {s t : Stamp} (hs : s.InRange) (ht : t.InRange) :
    (lockid s = lockid t → s = t) ↔
      s.pidId ≠ t.pidId ∨ s.threadId ≠ t.threadId ∨ s.tvSec ≠ t.tvSec ∨ s.tvUsec = t.tvUsec ∨
        s.digits ≤ 30 ∨
        (formatLong s.tvUsec).take (36 - s.digits) ≠
          (formatLong t.tvUsec).take (36 - s.digits) := by
  have hwhole : ∀ r : Stamp, r.InRange → s.digits ≤ 30 →
      (formatLong r.tvUsec).take (36 - s.digits) = formatLong r.tvUsec := by
    intro r hr hdigits
    have hlen := length_formatLong_le hr.usec.1 (by decide) hr.usec.2
    exact List.take_of_length_le (by omega)
  rw [lockid_eq_iff hs ht]
  constructor
  · intro h
    by_contra hno
    simp only [not_or, not_not, not_le] at hno
    obtain ⟨hpid, hthread, hsec, husec, _, hcut⟩ := hno
    exact husec (congrArg Stamp.tvUsec (h ⟨hpid, hthread, hsec, hcut⟩))
  · rintro h ⟨hpid, hthread, hsec, hcut⟩
    have husec : s.tvUsec = t.tvUsec := by
      rcases h with h | h | h | h | h | h
      · exact absurd hpid h
      · exact absurd hthread h
      · exact absurd hsec h
      · exact h
      · rw [hwhole s hs h, hwhole t ht h] at hcut
        exact formatLong_injective hcut
      · exact absurd hcut h
    cases s
    cases t
    simp only [Stamp.mk.injEq]
    exact ⟨hpid, hthread, hsec, husec⟩

/-- Pid 10, a short address and a time in 2011 have 17 digits, and the microseconds are kept. -/
theorem lockid_unique_with_17_digits :
    lockid ⟨10, 12345, 1300000000, 5⟩ ≠ lockid ⟨10, 12345, 1300000000, 6⟩ := by
  intro h
  have heq := (lockid_unique_iff ⟨by decide, by decide, by decide, by decide⟩
    ⟨by decide, by decide, by decide, by decide⟩).mpr (by decide) h
  exact absurd heq (by decide)

/-- A process and a queue with long numbers: two claims within the same second get the same
lock id. -/
theorem lockid_not_unique_with_32_digits :
    lockid ⟨4194304, 140737488355327, 1300000000, 100000⟩ =
        lockid ⟨4194304, 140737488355327, 1300000000, 100001⟩ ∧
      (⟨4194304, 140737488355327, 1300000000, 100000⟩ : Stamp).InRange ∧
      (⟨4194304, 140737488355327, 1300000000, 100001⟩ : Stamp).InRange ∧
      (⟨4194304, 140737488355327, 1300000000, 100000⟩ : Stamp) ≠
        ⟨4194304, 140737488355327, 1300000000, 100001⟩ :=
  ⟨by decide, ⟨by decide, by decide, by decide, by decide⟩,
    ⟨by decide, by decide, by decide, by decide⟩, by decide⟩

end Workq.Jobs
