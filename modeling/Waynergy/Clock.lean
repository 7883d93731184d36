import Waynergy.Lib.Counter
import Waynergy.SafeLog
import Waynergy.PollEntry

/-!
# The clock and the idle timeout (`syn_get_time`, `net.c`)

`syn_get_time` keeps 32 bits of the milliseconds of the monotonic clock, which wrap every 49 days. `netPoll` and
`sUpdateContext` compare two of its values by `elapsed`, and are right about them as long as the readings are less
than `2 ^ 31` milliseconds apart.
-/

namespace Waynergy
open Lib

/-! ### The clock -/

/-- `syn_get_time`, when `clock_gettime` gives `ts`. The product is a `time_t`, which has room for it for 292 million
years; it is stored modulo `2 ^ 32`, and so is the sum. -/
def synGetTime (ts : Timespec) : Nat :=
  let ms := (ts.sec * 1000 % 2 ^ 32).toNat
  ((ms + ts.nsec.tdiv 1000000) % 2 ^ 32).toNat

/-- A reading of `CLOCK_MONOTONIC`. -/
structure Reading extends Timespec where
  nsec_nonneg : 0 ≤ nsec
  nsec_lt : nsec < 10 ^ 9

namespace Reading

/-- The nanoseconds of a reading. -/
def nanos (t : Reading) : Int := t.sec * 10 ^ 9 + t.nsec

/-- The whole milliseconds of a reading, rounded down. -/
def millis (t : Reading) : Int := t.nanos / 10 ^ 6

instance : Preorder Reading where
  le t u := t.nanos ≤ u.nanos
  le_refl t := Int.le_refl t.nanos
  le_trans _ _ _ := Int.le_trans

theorem le_iff {t u : Reading} : t ≤ u ↔ t.sec < u.sec ∨ t.sec = u.sec ∧ t.nsec ≤ u.nsec := by
  have ht := t.nsec_nonneg
  have hu := u.nsec_nonneg
  have ht' := t.nsec_lt
  have hu' := u.nsec_lt
  show t.sec * 10 ^ 9 + t.nsec ≤ u.sec * 10 ^ 9 + u.nsec ↔ _
  omega

theorem millis_le {t u : Reading} (h : t ≤ u) : t.millis ≤ u.millis := Int.ediv_le_ediv (by decide) h

theorem millis_eq (t : Reading) : t.millis = t.sec * 1000 + t.nsec / 1000000 := by
  unfold millis nanos
  omega

theorem synGetTime_eq (t : Reading) : synGetTime t.toTimespec = counter 32 t.millis := by
  have hms : ((t.sec * 1000 % 2 ^ 32).toNat : Int) = t.sec * 1000 % 2 ^ 32 := counter_eq 32 _
  unfold synGetTime counter
  dsimp only
  rw [hms, Int.tdiv_eq_ediv_of_nonneg t.nsec_nonneg, Int.emod_add_emod, millis_eq]

end Reading

/-! ### The check -/

theorem elapsed_eq (now last : Nat) : elapsed now last = distance 32 now last := rfl

section
variable {t u : Reading} (hle : t ≤ u) (hlt : u.millis - t.millis < 2 ^ 31)
include hle hlt

/-- The time between two readings is told right, wherever the counter wrapped between them. -/
theorem elapsed_synGetTime :
    elapsed (synGetTime u.toTimespec) (synGetTime t.toTimespec) = u.millis - t.millis := by
  rw [elapsed_eq, u.synGetTime_eq, t.synGetTime_eq]
  exact distance_counter_of_lt (Reading.millis_le hle) (by omega) (by decide)

/-- A round of `netPoll`, once the socket is read, or not, with `s'`. -/
theorem netPoll_late {timedOut : Bool} {r : Round} {rounds : List Round} {s s' : State}
    (hread : (if r.readable then uSynergyUpdate r.env else pure () : Syn Unit).run s = .ok () s')
    (hlast : s'.ctx.lastMessageTime = synGetTime t.toTimespec) (hnow : r.now = synGetTime u.toTimespec) :
    (netPoll timedOut (r :: rounds)).run s = (if u.millis - t.millis > 10000 then do
        let _ ← synNetDisconnect
        pure ()
      else do
        if s'.ctx.connected then handleAll r.events else pure ()
        netPoll timedOut rounds : Syn Unit).run s' := by
  have hbody : (netPoll timedOut (r :: rounds)).run s =
      (do if ← pollRest r then netPoll timedOut rounds else pure () : Syn Unit).run s' := by
    rw [netPoll_cons, pollBody_eq, bind_assoc, EStateM.run_bind, hread]
  rw [hbody, pollRest_bind, EStateM.run_bind, EStateM.run_get]
  dsimp only
  rw [hlast, hnow, elapsed_synGetTime hle hlt]

/-- `sUpdateContext`, when it has received nothing. -/
theorem received_late {s : State} (hfits : s.ctx.receiveOfs ≤ receiveBufferSize)
    (hhello : s.ctx.hasReceivedHello = true) (hlast : s.ctx.lastMessageTime = synGetTime t.toTimespec) :
    (received [] (synGetTime u.toTimespec)).run s = .ok () { s with
      ctx := if u.millis - t.millis > 10000 then s.ctx.disconnect .timeout else s.ctx
      out := s.out ++ [.sleep 500] } := by
  have hwrite : s.ctx.receiveBuffer.write s.ctx.receiveOfs [] hfits = s.ctx.receiveBuffer := Buf.write_nil _ _ _
  unfold received
  rw [EStateM.run_bind, EStateM.run_get]
  dsimp only
  rw [dif_pos (show s.ctx.receiveOfs + ([] : Bytes).length ≤ receiveBufferSize from hfits), hwrite, if_pos rfl,
    if_pos hhello, if_pos rfl, hlast, elapsed_synGetTime hle hlt]
  split <;> rfl

end

/-- For any two readings that are less than `2 ^ 31` milliseconds apart, `netPoll` and `sUpdateContext` time out exactly
if more than 10000 milliseconds passed between them, however often the counter wrapped. -/
theorem timeouts_survive_wrap {t u : Reading} (hle : t ≤ u) (hlt : u.millis - t.millis < 2 ^ 31) :
    ((synGetTime t.toTimespec : Int) = (t.sec * 1000 + t.nsec / 1000000) % 2 ^ 32 ∧
      (synGetTime u.toTimespec : Int) = (u.sec * 1000 + u.nsec / 1000000) % 2 ^ 32) ∧
    (elapsed (synGetTime u.toTimespec) (synGetTime t.toTimespec) > idleTimeout ↔ u.millis - t.millis > 10000) ∧
    (∀ (timedOut : Bool) (r : Round) (rounds : List Round) (s s' : State),
      (if r.readable then uSynergyUpdate r.env else pure () : Syn Unit).run s = .ok () s' →
      s'.ctx.lastMessageTime = synGetTime t.toTimespec → r.now = synGetTime u.toTimespec →
      (netPoll timedOut (r :: rounds)).run s = (if u.millis - t.millis > 10000 then do
          let _ ← synNetDisconnect
          pure ()
        else do
          if s'.ctx.connected then handleAll r.events else pure ()
          netPoll timedOut rounds : Syn Unit).run s') ∧
    ∀ s : State, s.ctx.receiveOfs ≤ receiveBufferSize → s.ctx.hasReceivedHello = true →
      s.ctx.lastMessageTime = synGetTime t.toTimespec →
      (received [] (synGetTime u.toTimespec)).run s = .ok () { s with
        ctx := if u.millis - t.millis > 10000 then s.ctx.disconnect .timeout else s.ctx
        out := s.out ++ [.sleep 500] } := by
  refine ⟨⟨?_, ?_⟩, ?_, ?_, ?_⟩
  · rw [t.synGetTime_eq, counter_eq, t.millis_eq]
  · rw [u.synGetTime_eq, counter_eq, u.millis_eq]
  · rw [elapsed_synGetTime hle hlt]
  · exact fun _ _ _ _ _ hread hlast hnow => netPoll_late hle hlt hread hlast hnow
  · exact fun _ hfits hhello hlast => received_late hle hlt hfits hhello hlast

/-- Six milliseconds before the counter wraps for the first time. -/
def Reading.beforeWrap : Reading := ⟨⟨4294967, 290000000⟩, by decide, by decide⟩

/-- More than ten seconds later. -/
def Reading.afterWrap : Reading := ⟨⟨4294977, 299999999⟩, by decide, by decide⟩

theorem timeouts_survive_wrap_once : synGetTime Reading.beforeWrap.toTimespec = 4294967290 ∧
    synGetTime Reading.afterWrap.toTimespec = 10003 ∧
    elapsed (synGetTime Reading.afterWrap.toTimespec) (synGetTime Reading.beforeWrap.toTimespec) > idleTimeout := by
  have hle : Reading.beforeWrap ≤ Reading.afterWrap := Reading.le_iff.mpr (.inl (by decide))
  exact ⟨by decide, by decide, (timeouts_survive_wrap hle (by decide)).2.1.mpr (by decide)⟩

end Waynergy
