import SpotExchange.Json.Writer
import SpotExchange.Proofs.ClockReadings

/-!
Input without effect. A command that is rejected leaves the exchange as it was, just like a
line that holds none. So a run may be cut down to the lines that had an effect: what is left
is fed to the same end, with the same events.
-/

namespace SpotExchange

section Lines

theorem toList_loop (bytes : ByteArray) (index : Nat) (taken : List UInt8) :
    ByteArray.toList.loop bytes index taken = taken.reverse ++ bytes.data.toList.drop index := by
  induction index, taken using ByteArray.toList.loop.induct bytes with
  | case1 index taken inside ih =>
    have within : index < bytes.data.toList.length := inside
    have byte : bytes.get! index = bytes.data.toList[index] := by
      rw [ByteArray.get!, getElem!_pos bytes.data index inside, Array.getElem_toList]
    rw [ByteArray.toList.loop, if_pos inside, ih, List.drop_eq_getElem_cons within, byte,
      List.reverse_cons, List.append_assoc, List.singleton_append]
  | case2 index taken beyond =>
    rw [ByteArray.toList.loop, if_neg beyond, List.drop_of_length_le, List.append_nil]
    simpa using beyond

theorem toList_bytes (bytes : ByteArray) : bytes.toList = bytes.data.toList :=
  toList_loop bytes 0 []

theorem splitLines_unbroken (bytes : List UInt8) : ∀ line ∈ splitLines bytes, 10 ∉ line := by
  fun_induction splitLines bytes with
  | case1 => simp
  | case2 rest ih => simpa using ih
  | case3 byte rest other line lines split ih =>
    rw [split] at ih
    intro part member
    rcases List.mem_cons.1 member with rfl | later
    · have apart : (10 : UInt8) ≠ byte := fun same => other same.symm
      simp [apart, ih line List.mem_cons_self]
    · exact ih part (List.mem_cons_of_mem _ later)
  | case4 byte rest other none ih =>
    have apart : (10 : UInt8) ≠ byte := fun same => other same.symm
    simp [apart]

theorem splitLines_line {line : List UInt8} (unbroken : 10 ∉ line) (rest : List UInt8) :
    splitLines (line ++ 10 :: rest) = line :: splitLines rest := by
  induction line with
  | nil => simp [splitLines]
  | cons byte line ih =>
    obtain ⟨other, unbroken⟩ := not_or.1 (List.mem_cons.not.1 unbroken)
    rw [List.cons_append, splitLines, if_neg (Ne.symm other), ih unbroken]

theorem splitLines_joined {lines : List (List UInt8)} (unbroken : ∀ line ∈ lines, 10 ∉ line) :
    splitLines (lines.flatMap fun line => line ++ [10]) = lines ++ [[]] := by
  induction lines with
  | nil => rfl
  | cons line lines ih =>
    obtain ⟨first, others⟩ := List.forall_mem_cons.1 unbroken
    rw [List.flatMap_cons, List.append_assoc, List.singleton_append, splitLines_line first,
      ih others, List.cons_append]

def joinLines (lines : List ByteArray) : ByteArray :=
  ⟨(lines.flatMap fun line => line.data.toList ++ [10]).toArray⟩

theorem inputLines_unbroken (input : ByteArray) :
    ∀ line ∈ inputLines input, 10 ∉ line.data.toList := by
  intro line member
  obtain ⟨part, inside, rfl⟩ := List.mem_map.1 member
  have member : part ∈ splitLines input.toList := by
    split at inside
    · exact List.mem_of_mem_dropLast inside
    · exact inside
  simpa using splitLines_unbroken input.toList part member

theorem inputLines_joinLines {lines : List ByteArray}
    (unbroken : ∀ line ∈ lines, 10 ∉ line.data.toList) : inputLines (joinLines lines) = lines := by
  have split : splitLines (joinLines lines).toList =
      lines.map (fun line => line.data.toList) ++ [[]] := by
    rw [toList_bytes, joinLines]
    have apart : ∀ part ∈ lines.map (fun line => line.data.toList), 10 ∉ part := by
      simpa using unbroken
    simpa [List.flatMap_map] using splitLines_joined apart
  simp [inputLines, split, Function.comp_def]

end Lines

namespace Exchange
variable {exchange later : Exchange} {now : Instant}

theorem onLive_rejected {symbol : String} {change : Market → Market} {rejection : Rejection}
    (rejected : exchange.onLive symbol change = (some rejection, later)) : later = exchange := by
  unfold onLive at rejected
  cases found : exchange.directory.find? symbol <;> rw [found] at rejected <;> cases rejected
  rfl

/-- A rejection leaves everything as it was: only what finds no market is rejected. -/
theorem apply_rejected {command : Command} {rejection : Rejection}
    (rejected : exchange.apply now command = .ok (some rejection, later)) : later = exchange := by
  cases command with
  | placeOrder order =>
    simp only [apply, bind_eq_ok, return_eq_ok] at rejected
    obtain ⟨_, -, accepted⟩ := rejected
    cases accepted
  | cancelOrder request =>
    simp only [apply, bind_eq_ok, return_eq_ok] at rejected
    obtain ⟨_, -, accepted⟩ := rejected
    cases accepted
  | haltSymbol symbol => exact onLive_rejected (Except.ok.inj rejected)
  | resumeSymbol symbol => exact onLive_rejected (Except.ok.inj rejected)
  | markReady symbol => cases rejected
  | removeSymbol symbol =>
    cases removed : exchange.directory.remove? symbol <;> simp only [apply, removed] at rejected <;>
      cases rejected
    rfl

theorem applyRead_rejected {command : Option Command} {rejection : Rejection}
    (rejected : exchange.applyRead now command = .ok (some rejection, later)) :
    later = exchange := by
  cases command with
  | none =>
    cases rejected
    rfl
  | some command => exact apply_rejected rejected

/-- Whether a line is passed over: it holds no command, or one that is rejected. -/
def passesOver (exchange : Exchange) (now : Instant) (line : ByteArray) : Bool :=
  match String.fromUTF8? line with
  | some text =>
    match lineCommand? text.toList with
    | some command =>
      match exchange.receiveText now command with
      | .ok (some _, _) => true
      | _ => false
    | none => true
  | none => false

/-- The lines of a run that are not passed over. Behind a line that stops the program none
is judged. -/
def effective (exchange : Exchange) : TimedLines → TimedLines
  | [] => []
  | (now, line) :: rest =>
    match exchange.feedLine now line with
    | .ok later =>
      if exchange.passesOver now line then later.effective rest
      else (now, line) :: later.effective rest
    | .error _ => (now, line) :: rest

theorem feedLine_of_passesOver {line : ByteArray} (passed : exchange.passesOver now line = true) :
    exchange.feedLine now line = .ok exchange := by
  cases read : String.fromUTF8? line with
  | none => simp [passesOver, read] at passed
  | some text =>
    rw [feedLine_some read]
    cases known : lineCommand? text.toList with
    | none => rfl
    | some command =>
      dsimp only
      cases received : exchange.receiveText now command with
      | error cause => simp [passesOver, read, known, received] at passed
      | ok result =>
        obtain ⟨reply, later⟩ := result
        cases reply with
        | none => simp [passesOver, read, known, received] at passed
        | some rejection =>
          obtain rfl := applyRead_rejected received
          rfl

/-- What is passed over leaves nothing behind, so the others find what they would find. -/
theorem feedAt_effective (exchange : Exchange) (lines : TimedLines) :
    exchange.feedAt (exchange.effective lines) = exchange.feedAt lines := by
  induction lines generalizing exchange with
  | nil => rfl
  | cons head rest ih =>
    obtain ⟨now, line⟩ := head
    rw [effective, feedAt]
    cases fed : exchange.feedLine now line with
    | error stop => simp only [feedAt, fed]
    | ok later =>
      dsimp only
      split
      case isTrue passed =>
        -- A line that is passed over was fed to the exchange that it leaves.
        obtain rfl := Except.ok.inj ((feedLine_of_passesOver passed).symm.trans fed)
        exact ih exchange
      case isFalse => simp only [feedAt, fed, ih later]

theorem effective_sublist (exchange : Exchange) (lines : TimedLines) :
    (exchange.effective lines).Sublist lines := by
  induction lines generalizing exchange with
  | nil => exact List.Sublist.refl _
  | cons head rest ih =>
    obtain ⟨now, line⟩ := head
    rw [effective]
    split
    case h_1 later fed =>
      split
      · exact (ih later).cons _
      · exact (ih later).cons_cons _
    case h_2 => exact List.Sublist.refl _

end Exchange

/-- Whether two instants are on the same side of every cutoff in force. -/
def Directory.SameSides (directory : Directory) (time other : Instant) : Prop :=
  ∀ window ∈ directory.windows, time < window.cutoff ↔ other < window.cutoff

instance (directory : Directory) (time other : Instant) :
    Decidable (directory.SameSides time other) :=
  inferInstanceAs (Decidable (∀ window ∈ directory.windows, _))

/-- Dates without what the clock showed: its readings are all put at one instant, and other
dates are kept. -/
def Instant.unread (readings : List Instant) (time : Instant) : Instant :=
  if time ∈ readings then default else time

/-- A clock on which readings are one and the same if they are on the same sides. -/
def Directory.merged (directory : Directory) (readings : List Instant) (time : Instant) : Instant :=
  if time ∈ readings then (readings.find? fun reading => directory.SameSides reading time).getD time
  else time

section Readings
variable {directory : Directory} {readings : List Instant} {time other : Instant}

theorem Directory.keptBy_merged : directory.KeptBy (directory.merged readings) := by
  intro window inForce time
  unfold merged
  split
  case isFalse => rfl
  case isTrue member =>
    cases found : readings.find? fun reading => directory.SameSides reading time with
    | none => rfl
    | some reading =>
      have sides : directory.SameSides reading time := by simpa using List.find?_some found
      exact sides window inForce

theorem Directory.merged_mem (read : time ∈ readings) :
    directory.merged readings time ∈ readings := by
  rw [merged, if_pos read]
  cases found : readings.find? fun reading => directory.SameSides reading time with
  | none => exact read
  | some reading => exact List.mem_of_find?_eq_some found

theorem Directory.merged_eq (sides : directory.SameSides time other) (read : time ∈ readings)
    (read' : other ∈ readings) :
    directory.merged readings time = directory.merged readings other := by
  have alike (reading : Instant) :
      directory.SameSides reading time ↔ directory.SameSides reading other :=
    forall₂_congr fun window inForce => iff_congr Iff.rfl (sides window inForce)
  have found : (readings.find? fun reading => directory.SameSides reading other).isSome :=
    List.find?_isSome.2 ⟨other, read', decide_eq_true fun _ _ => Iff.rfl⟩
  obtain ⟨reading, found⟩ := Option.isSome_iff_exists.1 found
  simp only [merged, if_pos read, if_pos read', alike, found, Option.getD_some]

theorem Instant.unread_merged :
    Instant.unread readings ∘ directory.merged readings = Instant.unread readings := by
  funext time
  by_cases read : time ∈ readings
  · rw [Function.comp_apply, unread, if_pos (Directory.merged_mem read), unread, if_pos read]
  · rw [Function.comp_apply, Directory.merged, if_neg read]

end Readings

namespace Exchange
variable (exchange : Exchange)

/-- One line, read at two times that are on the same sides. -/
def ReadAlike (line other : Instant × ByteArray) : Prop :=
  line.2 = other.2 ∧ exchange.directory.SameSides line.1 other.1

/-- Lines that are read at other times, on the same sides, lead to the same exchange but for
the dates that the clock showed, and are stopped alike. -/
theorem feedAt_readAlike {lines others : TimedLines}
    (alike : List.Forall₂ exchange.ReadAlike lines others) {readings : List Instant}
    (first : ∀ line ∈ lines, line.1 ∈ readings) (last : ∀ line ∈ others, line.1 ∈ readings) :
    Prod.map id (redated (Instant.unread readings)) (exchange.feedAt lines) =
      Prod.map id (redated (Instant.unread readings)) (exchange.feedAt others) := by
  have paired : List.Forall₂ (fun line other => line.2 = other.2 ∧
      exchange.directory.merged readings line.1 = exchange.directory.merged readings other.1)
      lines others := by
    induction alike with
    | nil => exact .nil
    | cons head rest ih =>
      obtain ⟨read, first⟩ := List.forall_mem_cons.1 first
      obtain ⟨read', last⟩ := List.forall_mem_cons.1 last
      exact .cons ⟨head.1, Directory.merged_eq head.2 read read'⟩ (ih first last)
  -- On the merged clock both runs are one. What it shows is one of the readings, so it is
  -- forgotten together with them.
  have merged := feedAt_alike rfl Directory.keptBy_merged paired
  have forgotten (result : Option Stop × Exchange) :
      Prod.map id (redated (Instant.unread readings))
        (Prod.map id (redated (exchange.directory.merged readings)) result) =
      Prod.map id (redated (Instant.unread readings)) result := by
    rw [Prod.map_map, Prod.map_apply', Prod.map_apply']
    exact congrArg (Prod.mk _) ((redated_comp ..).trans (by rw [Instant.unread_merged]))
  rw [← forgotten, merged, forgotten]

/-- What is left of an input when the lines that are passed over are deleted. -/
def pruned (lines : TimedLines) : ByteArray := joinLines ((exchange.effective lines).map Prod.snd)

theorem inputLines_pruned {input : ByteArray} {lines : TimedLines}
    (held : lines.map Prod.snd = inputLines input) :
    inputLines (exchange.pruned lines) = (exchange.effective lines).map Prod.snd := by
  refine inputLines_joinLines fun line member => inputLines_unbroken input line ?_
  rw [← held]
  exact ((exchange.effective_sublist lines).map Prod.snd).subset member

theorem effective_at (now : Instant) (lines : List ByteArray) :
    ((exchange.effective (lines.map fun line => (now, line))).map Prod.snd).map
        (fun line => (now, line)) =
      exchange.effective (lines.map fun line => (now, line)) := by
  have same : ∀ timed ∈ exchange.effective (lines.map fun line => (now, line)),
      ((fun line => (now, line)) ∘ Prod.snd) timed = id timed := by
    intro timed member
    obtain ⟨line, -, rfl⟩ := List.mem_map.1 ((exchange.effective_sublist _).subset member)
    rfl
  rw [List.map_map, List.map_congr_left same, List.map_id]

end Exchange

/-- A message that is rejected changes nothing at all. So whatever lines an input holds and
whenever they are read, the input without its blank lines, those that start with `#` and
those that are rejected is fed to the same end with the same events: exactly the same if
the lines that are left are read at the same times, and up to what the clock showed if they
are read at others, as long as no cutoff lies in between. -/
theorem rejected_input_has_no_effect (exchange : Exchange) :
    (∀ (now : Instant) (message : ByteArray) (rejection : Rejection) (later : Exchange),
      exchange.receive now message = .ok (some rejection, later) → later = exchange) ∧
    (∀ (now : Instant) (input : ByteArray),
      exchange.feed now
          (inputLines (exchange.pruned ((inputLines input).map fun line => (now, line)))) =
        exchange.feed now (inputLines input)) ∧
    ∀ (input : ByteArray) (lines : TimedLines), lines.map Prod.snd = inputLines input →
      inputLines (exchange.pruned lines) = (exchange.effective lines).map Prod.snd ∧
      exchange.feedAt (exchange.effective lines) = exchange.feedAt lines ∧
      ∀ others : TimedLines, List.Forall₂ exchange.ReadAlike (exchange.effective lines) others →
        Prod.map id (Exchange.redated
            (Instant.unread ((exchange.effective lines ++ others).map Prod.fst)))
            (exchange.feedAt others) =
          Prod.map id (Exchange.redated
            (Instant.unread ((exchange.effective lines ++ others).map Prod.fst)))
            (exchange.feedAt lines) := by
  refine ⟨fun now message rejection later => Exchange.applyRead_rejected, ?_, ?_⟩
  · intro now input
    have held :
        ((inputLines input).map fun line => (now, line)).map Prod.snd = inputLines input := by
      rw [List.map_map]
      exact List.map_id _
    rw [exchange.inputLines_pruned held, Exchange.feed_eq_feedAt, Exchange.feed_eq_feedAt,
      Exchange.effective_at, Exchange.feedAt_effective]
  · intro input lines held
    refine ⟨exchange.inputLines_pruned held, exchange.feedAt_effective lines, ?_⟩
    intro others alike
    rw [← exchange.feedAt_effective lines]
    refine (exchange.feedAt_readAlike alike ?_ ?_).symm
    · exact fun line member => List.mem_map_of_mem (List.mem_append_left _ member)
    · exact fun line member => List.mem_map_of_mem (List.mem_append_right _ member)

def Exchange.sampleIssuing : Exchange :=
  let exchange := ofSettings Settings.default .openChannel
  { exchange with
    directory := exchange.directory.configure
      { Listing.named "coin" with issuance := some ⟨⟨100, 0⟩, .buy⟩ } }

def TimedLines.sampleOrder (side : String) : ByteArray :=
  (Json.array [.string "place_order", .array [.string side, .ofNat 7, .string "coin",
    .string "limit", .string side, .string "2", .string "3"]]).toText.toUTF8

def TimedLines.sampleHalt : ByteArray :=
  (Json.array [.string "halt_symbol", .string "coin"]).toText.toUTF8

/-- A rejected command, a blank line, a comment, an ask, what is no command, and a bid. -/
def TimedLines.sample : TimedLines :=
  [(⟨1, 0⟩, sampleHalt), (⟨2, 0⟩, " ".toUTF8), (⟨3, 0⟩, " # note".toUTF8),
    (⟨4, 0⟩, sampleOrder "sell"), (⟨5, 0⟩, "nonsense".toUTF8), (⟨6, 0⟩, sampleOrder "buy")]

theorem sample_input_pruned :
    let exchange := Exchange.sampleIssuing
    let lines := TimedLines.sample
    let kept : TimedLines :=
      [(⟨4, 0⟩, TimedLines.sampleOrder "sell"), (⟨6, 0⟩, TimedLines.sampleOrder "buy")]
    let others : TimedLines :=
      [(⟨70, 0⟩, TimedLines.sampleOrder "sell"), (⟨80, 5⟩, TimedLines.sampleOrder "buy")]
    let forgotten := Exchange.redated (Instant.unread [⟨4, 0⟩, ⟨6, 0⟩, ⟨70, 0⟩, ⟨80, 5⟩])
    (∃ later, exchange.receive ⟨1, 0⟩ TimedLines.sampleHalt =
        .ok (some (.unknownSymbol "coin"), later) ∧ later = exchange) ∧
      lines.map Prod.snd = inputLines (joinLines (lines.map Prod.snd)) ∧
      exchange.effective lines = kept ∧ List.Forall₂ exchange.ReadAlike kept others ∧
      exchange.feedAt kept = exchange.feedAt lines ∧
      Prod.map id forgotten (exchange.feedAt others) =
        Prod.map id forgotten (exchange.feedAt lines) := by
  intro exchange lines kept others forgotten
  obtain ⟨rejected, -, deleted⟩ := rejected_input_has_no_effect exchange
  have read : Command.ofBytes? ⟨1, 0⟩ TimedLines.sampleHalt = some (.haltSymbol "coin") := by
    decide +kernel
  have received : exchange.receive ⟨1, 0⟩ TimedLines.sampleHalt =
      .ok (some (.unknownSymbol "coin"), exchange) := by
    rw [Exchange.receive, read]
    rfl
  have held : lines.map Prod.snd = inputLines (joinLines (lines.map Prod.snd)) :=
    (inputLines_joinLines (by decide +kernel)).symm
  have left : exchange.effective lines = kept := by decide +kernel
  have alike : List.Forall₂ exchange.ReadAlike kept others :=
    .cons ⟨rfl, by decide +kernel⟩ (.cons ⟨rfl, by decide +kernel⟩ .nil)
  obtain ⟨-, same, redated⟩ := deleted _ lines held
  refine ⟨⟨exchange, received, rejected _ _ _ _ received⟩, held, left, alike, ?_, ?_⟩
  · rw [← left]
    exact same
  · have last := redated others (left ▸ alike)
    rw [left] at last
    exact last

end SpotExchange
