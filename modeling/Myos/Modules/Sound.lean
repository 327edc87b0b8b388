import Mathlib.Algebra.GroupWithZero.Nat
import Myos.Lib.System

namespace Myos.Modules.Sound
open Lib

def MAX_CARDS : Nat := 8
def MAX_STREAMS : Nat := 16
def PERIODS : Nat := 4
def PERIOD_MAX : Nat := 64 * 1024
def SOUND_RATES : List Nat :=
  [5512, 8000, 11025, 16000, 22050, 32000, 44100, 48000, 64000, 88200, 96000, 176400, 192000, 384000]

inductive Format
  | u8
  | s16
deriving DecidableEq

def Format.bit : Format → Nat
  | .u8 => 0
  | .s16 => 1

structure SoundParams where
  rate : Nat
  channels : Nat
  format : Format
  periodBytes : Nat
  bufferBytes : Nat
deriving DecidableEq

structure SoundStreamInfo where
  channelsMin : Nat
  channelsMax : Nat
  formats : Nat
  rates : Nat

/-- A call past its first locked section: before the driver's `start`, before the section after a `start` that
failed, and before the driver's `stop`. -/
inductive Call
  | starting (params : SoundParams)
  | failed
  | stopping
deriving DecidableEq

/-- `calls` are the calls on the stream under way, by any programs; `last` is history: the parameters of the
driver's last successful call, if that was a start. -/
structure Stream where
  card : Nat
  info : SoundStreamInfo
  running : Option SoundParams
  calls : List Call
  last : Option SoundParams

/-- `cards` says of each card whether it is gone. A card's streams are those that name it. -/
structure World where
  cards : List Bool
  streams : List Stream

/-- `stop` is a command or the release of `data`; in `driver` the driver answers the `k`th call, and in `undo`
the record of a failed start goes. -/
inductive Event
  | cardRegister (infos : List SoundStreamInfo)
  | cardRemove (card : Nat)
  | start (n rate channels : Nat) (format : Format) (period : Option Nat)
  | stop (n : Nat)
  | driver (n k : Nat) (ok : Bool)
  | undo (n k : Nat)

def frameBytes (channels : Nat) (format : Format) : Nat := channels * if format = .s16 then 2 else 1

def SoundStreamInfo.params (info : SoundStreamInfo) (rate channels : Nat) (format : Format) (period : Option Nat) :
    Option SoundParams :=
  let periodFrames := period.getD (max (rate / 50) 1)
  let periodBytes := min (periodFrames * frameBytes channels format) (2 ^ 32 - 1)
  if periodFrames ≠ 0 ∧ channels < 2 ^ 8 ∧ (SOUND_RATES.zipIdx.any fun (r, i) => r == rate && info.rates.testBit i) ∧
      info.channelsMin ≤ channels ∧ channels ≤ info.channelsMax ∧ info.formats.testBit format.bit ∧ periodBytes ≤ PERIOD_MAX then
    some ⟨rate, channels, format, periodBytes, periodBytes * PERIODS⟩
  else none

namespace Stream

variable (s : Stream) (present : Prop) [Decidable present]

def start (params : SoundParams) : Option Stream :=
  if s.running = none ∧ present then some { s with running := some params, calls := .starting params :: s.calls } else none

def stop : Option Stream :=
  if s.running = none then none
  else some { s with running := none, calls := if present then .stopping :: s.calls else s.calls }

def driver (k : Nat) (ok : Bool) : Option Stream :=
  match s.calls[k]? with
  | some (.starting params) =>
    some (if ok then { s with last := some params, calls := s.calls.eraseIdx k } else { s with calls := s.calls.set k .failed })
  | some .stopping => some { s with last := none, calls := s.calls.eraseIdx k }
  | _ => none

def undo (k : Nat) : Option Stream :=
  if s.calls[k]? = some .failed then some { s with running := none, calls := s.calls.eraseIdx k } else none

end Stream

namespace World

variable (w : World)

abbrev present (card : Nat) : Prop := w.cards[card]? = some false

def on (n : Nat) (f : Stream → Option Stream) : Option World :=
  w.streams[n]?.bind fun s => (f s).map fun s => { w with streams := w.streams.set n s }

def step : Event → Option World
  | .cardRegister infos =>
    if infos ≠ [] ∧ w.cards.length < MAX_CARDS ∧ w.streams.length + infos.length ≤ MAX_STREAMS then
      some ⟨w.cards ++ [false], w.streams ++ infos.map (⟨w.cards.length, ·, none, [], none⟩)⟩
    else none
  | .cardRemove card =>
    some ⟨w.cards.set card true, w.streams.map fun s => if s.card = card then { s with running := none } else s⟩
  | .start n rate channels format period =>
    w.on n fun s => (s.info.params rate channels format period).bind (s.start (w.present s.card))
  | .stop n => w.on n fun s => s.stop (w.present s.card)
  | .driver n k ok => w.on n (·.driver k ok)
  | .undo n k => w.on n (·.undo k)

def system : System World Event := ⟨fun w => w = ⟨[], []⟩, step⟩

/-- With no call under way, the driver's last successful call on a stream of a present card is a start exactly
when the core has the stream running, and with its parameters. -/
def RunsAsSaid : Prop :=
  (∀ s ∈ w.streams, s.calls = []) → ∀ s ∈ w.streams, w.present s.card → s.last = s.running

/-- A start or a stop has its locked section while no other call on the stream is under way. -/
def meets : Event → Bool
  | .start n _ _ _ _ | .stop n => w.streams[n]?.all fun s => s.calls.isEmpty
  | _ => true

end World

def Stream.Fits (s : Stream) : Prop :=
  match s.calls with
  | [] => s.last = s.running
  | [.starting params] => s.running = some params ∧ s.last = none
  | [.failed] => s.last = none
  | [.stopping] => s.running = none
  | _ => False

namespace Stream.Fits

variable {s s' : Stream} {k : Nat} {call : Call}

theorem only (fits : s.Fits) (there : s.calls[k]? = some call) : s.calls = [call] ∧ k = 0 := by
  rcases calls : s.calls with _ | ⟨first, _ | ⟨second, rest⟩⟩
  · simp [calls] at there
  · rw [calls] at there
    cases Nat.lt_one_iff.mp (List.getElem?_eq_some_iff.mp there).1
    cases there
    exact ⟨rfl, rfl⟩
  · simp [Fits, calls] at fits

theorem driver {ok : Bool} (fits : s.Fits) (changed : s.driver k ok = some s') : s'.Fits := by
  unfold Stream.driver at changed
  split at changed <;> cases changed
  · rename_i there
    obtain ⟨calls, rfl⟩ := fits.only there
    cases ok <;> simp_all [Fits]
  · rename_i there
    obtain ⟨calls, rfl⟩ := fits.only there
    simp_all [Fits]

end Stream.Fits

namespace World

variable {w w' : World}

def Good (w : World) (s : Stream) : Prop := s.card < w.cards.length ∧ (w.present s.card → s.Fits)

def Inv (w : World) : Prop := ∀ s ∈ w.streams, w.Good s

theorem Inv.on (inv : w.Inv) {n : Nat} {f : Stream → Option Stream} (stepped : w.on n f = some w')
    (good : ∀ s s', w.streams[n]? = some s → w.Good s → f s = some s' → s'.card = s.card ∧ (w.present s.card → s'.Fits)) :
    w'.Inv := by
  obtain ⟨s, there, stepped⟩ := Option.bind_eq_some_iff.mp stepped
  obtain ⟨s', changed, rfl⟩ := Option.map_eq_some_iff.mp stepped
  have before := inv s (List.mem_of_getElem? there)
  obtain ⟨card, fits⟩ := good s s' there before changed
  intro other member
  rcases List.mem_or_eq_of_mem_set member with kept | rfl
  · exact inv other kept
  · exact ⟨card ▸ before.1, fun present => fits (card ▸ present)⟩

theorem Inv.step (inv : w.Inv) {event : Event} (met : w.meets event = true) (stepped : w.step event = some w') : w'.Inv := by
  cases event with
  | cardRegister infos =>
    refine guarded stepped fun _ s member => ?_
    rcases List.mem_append.mp member with old | new
    · obtain ⟨inside, fits⟩ := inv s old
      refine ⟨Nat.lt_of_lt_of_le inside (by simp), fun present => fits ?_⟩
      rwa [World.present, List.getElem?_append_left inside] at present
    · obtain ⟨info, _, rfl⟩ := List.mem_map.mp new
      exact ⟨by simp, fun _ => rfl⟩
  | cardRemove card =>
    cases stepped
    intro s member
    obtain ⟨old, before, rfl⟩ := List.mem_map.mp member
    obtain ⟨inside, fits⟩ := inv old before
    split
    · rename_i own
      refine ⟨by simpa using inside, fun present => ?_⟩
      simp [World.present, own, own ▸ inside] at present
    · rename_i other
      refine ⟨by simpa using inside, fun present => fits ?_⟩
      rwa [World.present, List.getElem?_set_ne (Ne.symm other)] at present
  | start n rate channels format period =>
    refine inv.on stepped fun s s' there good changed => ?_
    obtain ⟨params, _, changed⟩ := Option.bind_eq_some_iff.mp changed
    refine guarded changed fun idle => ⟨rfl, fun present => ?_⟩
    have fits := good.2 present
    simp only [meets, there, Option.all_some, List.isEmpty_iff] at met
    simp only [Stream.Fits, met] at fits ⊢
    exact ⟨trivial, fits.trans idle.1⟩
  | stop n =>
    refine inv.on stepped fun s s' there good changed => ?_
    refine unguarded changed fun _ => ⟨rfl, fun present => ?_⟩
    simp only [meets, there, Option.all_some, List.isEmpty_iff] at met
    simp only [Stream.Fits, met, if_pos present]
  | driver n k ok =>
    refine inv.on stepped fun s s' there good changed => ⟨?_, fun present => (good.2 present).driver changed⟩
    unfold Stream.driver at changed
    split at changed <;> cases changed
    · cases ok <;> rfl
    · rfl
  | undo n k =>
    refine inv.on stepped fun s s' there good changed => ?_
    refine guarded changed fun failed => ⟨rfl, fun present => ?_⟩
    have fits := good.2 present
    obtain ⟨calls, rfl⟩ := fits.only failed
    simp_all [Stream.Fits]

theorem reach_runsAsSaid (w : World) (reachable : system.Reach (fun w event => w.meets event = true) w) : w.RunsAsSaid := by
  have inv : w.Inv := by
    refine reachable.invariant (fun w start => ?_) fun w event w' inv met stepped => inv.step met stepped
    rw [start]
    exact fun s member => absurd member List.not_mem_nil
  intro quiet s member present
  have fits := (inv s member).2 present
  simpa only [Stream.Fits, quiet s member] using fits

def stereo : SoundStreamInfo := ⟨1, 2, 2, 2 ^ 7⟩

theorem reach_runsAsSaid_started : ∃ w, system.Reach (fun w event => w.meets event = true) w ∧ w.RunsAsSaid ∧
    ∃ s ∈ w.streams, s.last ≠ none := by
  have booted : system.Reach (fun w event => w.meets event = true) ⟨[], []⟩ := .start rfl
  have reached := booted.runMeeting [.cardRegister [stereo], .start 0 48000 2 .s16 none, .driver 0 0 true] rfl
  exact ⟨_, reached, reach_runsAsSaid _ reached, _, List.mem_singleton_self _, by simp⟩

/-- A stop that comes between a start's record and its call reaches the driver first. -/
theorem stop_overtakes_start : ¬ ∀ w, system.Reach System.Any w → w.RunsAsSaid := by
  intro always
  have booted : system.Reach System.Any ⟨[], []⟩ := .start rfl
  have reached := booted.run [.cardRegister [stereo], .start 0 48000 2 .s16 none, .stop 0, .driver 0 0 true, .driver 0 0 true] rfl
  have quiet := always _ reached (fun s member => by cases List.mem_singleton.mp member; rfl)
  cases quiet _ (List.mem_singleton_self _) rfl

end World
end Myos.Modules.Sound
