import SpotExchange.Proofs.DecimalText
import SpotExchange.Proofs.DecimalValue
import SpotExchange.Proofs.InstantText
import SpotExchange.Proofs.JsonText
import SpotExchange.Wire.Command

/-!
Orders survive their text. The object that is written for an order holds each field under a
name of its own, and every field is read back as it was; so an order is read back from the
text of its object, and a command from a text that holds the object.
-/

namespace SpotExchange

namespace Json

theorem member?_of_mem {members : List (String × Json)} (distinct : (members.map Prod.fst).Nodup)
    {entry : String × Json} (member : entry ∈ members) :
    member? entry.1 members = some (some entry.2) := by
  have alone : members.filter (fun other => other.1 = entry.1) = [entry] := by
    induction members with
    | nil => simp at member
    | cons head members ih =>
      obtain ⟨absent, distinct⟩ := List.nodup_cons.1 distinct
      rcases List.mem_cons.1 member with rfl | later
      · have none : members.filter (fun other => other.1 = entry.1) = [] := by
          simp only [List.filter_eq_nil_iff, decide_eq_true_eq]
          exact fun other found same => absent (same ▸ List.mem_map_of_mem found)
        simp [none]
      · have other : head.1 ≠ entry.1 := fun same => absent (same ▸ List.mem_map_of_mem later)
        simp [other, ih distinct later]
  rw [member?, alone]

theorem slots?_object {names : List String} {members : List (String × Json)}
    (named : members.map Prod.fst = names) (distinct : names.Nodup) :
    slots? names (.object members) = some (members.map fun entry => some entry.2) := by
  subst named
  have found : ∀ part ⊆ members, (part.map Prod.fst).mapM (fun name => member? name members) =
      some (part.map fun entry => some entry.2) := by
    intro part within
    induction part with
    | nil => rfl
    | cons entry part ih =>
      obtain ⟨first, others⟩ := List.cons_subset.1 within
      simp [member?_of_mem distinct first, ih others]
  exact found members (List.Subset.refl members)

end Json

@[simp] theorem Side.ofJson?_toJson (source : Json.Source) (side : Side) :
    Side.ofJson? source side.toJson = some side := by
  cases side <;> rfl

@[simp] theorem OrderKind.ofJson?_toJson (source : Json.Source) (kind : OrderKind) :
    OrderKind.ofJson? source kind.toJson = some kind := by
  cases kind <;> rfl

@[simp] theorem OrderStatus.ofJson?_toJson (source : Json.Source) (status : OrderStatus) :
    OrderStatus.ofJson? source status.toJson = some status := by
  cases status <;> rfl

@[simp] theorem Decimal.ofJson?_toJson (value : Decimal) :
    Decimal.ofJson? value.toJson = some value :=
  Decimal.ofText?_toText value

theorem userId_within (userId : UInt64) : userId.toNat ≤ 18446744073709551615 := by
  have := userId.toNat_lt
  omega

@[simp] theorem userIdOfJson?_ofNat (userId : UInt64) :
    userIdOfJson? (.ofNat userId.toNat) = some userId := by
  rw [userIdOfJson?, Json.ofNat, Json.natural?, if_pos (userId_within userId), Option.map_some,
    UInt64.ofNat_toNat]

namespace Order

/-- Every field is read back from the object, from a text as well as from a tree. -/
theorem ofJson?_toJson (source : Json.Source) (now : Instant) {order : Order}
    (ordinary : order.createdAt.nanos < 1000000000) (first : 0 ≤ order.createdAt.date.year)
    (last : order.createdAt.date.year ≤ 9999) :
    Order.ofJson? source now order.toJson = some order := by
  have createdAt : Instant.ofJson? order.createdAt.toJson = some order.createdAt := by
    simp [Instant.ofJson?, Instant.toJson, Json.text?,
      Instant.ofText?_toText order.createdAt ordinary first last]
  rw [ofJson?, toJson, Json.slots?_object]
  case named => rfl
  case distinct => simp
  simp [Json.required, Json.optional, Json.text?, createdAt]

theorem toJson_exact (order : Order) : order.toJson.Exact := by
  simp [toJson, Json.Exact, Json.ExactMembers, Json.ofNat, Number.Whole, OrderKind.toJson,
    Side.toJson, Decimal.toJson, OrderStatus.toJson, Instant.toJson, userId_within order.userId]

end Order

namespace Command

theorem ofJson?_placeOrder (now : Instant) {order : Order}
    (read : Order.ofJson? .tree now order.toJson = some order) :
    Command.ofJson? now (Command.placeOrder order).toJson = some (.placeOrder order) := by
  have name : Json.member? "cmd" [("cmd", .string "place_order"), ("order", order.toJson)] =
      some (some (.string "place_order")) := by
    simp [Json.member?]
  have field : Json.slots? ["order"] (.object [("order", order.toJson)]) =
      some [some order.toJson] :=
    Json.slots?_object rfl (by simp)
  simp [ofJson?, toJson, name, ofFields?, field?, field, Json.required, read]

theorem placeOrder_exact (order : Order) : (Command.placeOrder order).toJson.Exact :=
  ⟨trivial, order.toJson_exact, trivial⟩

theorem placeOrder_sound (order : Order) : (Command.placeOrder order).toJson.sound = true := by
  simp [Json.sound, toJson, Order.toJson, Json.readable, Json.readableMembers, Json.depth,
    Json.depthOfMembers, Json.ofNat, OrderKind.toJson, Side.toJson, Decimal.toJson,
    OrderStatus.toJson, Instant.toJson]

theorem ofBytes?_toUTF8 (now : Instant) (text : String) :
    ofBytes? now text.toUTF8 = ofText? now text.toList := by
  have read : String.fromUTF8? text.toUTF8 = some text := dif_pos text.isValidUTF8
  rw [ofBytes?, read]
  rfl

theorem ofText?_placeOrder (now : Instant) {order : Order}
    (read : Order.ofJson? .tree now order.toJson = some order) :
    Command.ofText? now (Command.placeOrder order).toJson.write = some (.placeOrder order) := by
  rw [ofText?, Json.ofText?_write (placeOrder_exact order), Option.bind_eq_bind, Option.bind_some,
    if_pos (placeOrder_sound order), ofJson?_placeOrder now read]

end Command

/-- An order created in the years of four digits, at no leap second, is read back from the
text of its object with all its fields, every decimal with the places it has, whatever
characters its number and its symbol hold and whatever the time is. So is the command to
place it from the text that holds the object, as characters or as bytes. -/
theorem orders_survive_text (order : Order) (first : 0 ≤ order.createdAt.date.year)
    (last : order.createdAt.date.year ≤ 9999) (ordinary : order.createdAt.nanos < 1000000000)
    (source : Json.Source) (now : Instant) :
    (Json.ofText? order.toJson.write).bind (Order.ofJson? source now) = some order ∧
      Command.ofText? now (Command.placeOrder order).toJson.write = some (.placeOrder order) ∧
      Command.ofBytes? now (Command.placeOrder order).toJson.toText.toUTF8 =
        some (.placeOrder order) := by
  have read (source : Json.Source) : Order.ofJson? source now order.toJson = some order :=
    Order.ofJson?_toJson source now ordinary first last
  have placed := Command.ofText?_placeOrder now (read .tree)
  refine ⟨?_, placed, ?_⟩
  · rw [Json.ofText?_write order.toJson_exact, Option.bind_some, read source]
  · rw [Command.ofBytes?_toUTF8, Json.toText, String.toList_ofList, placed]

/-- An order with marks, control characters and letters beyond ASCII in its number and its
symbol, with decimals of the greatest size and of all places, at the last instant of the
years of four digits. -/
def Order.sampleHard : Order where
  number := "\"a\\b\"\n\r\t\x00\x08\x0c\x1f/é😀"
  userId := 18446744073709551615
  symbol := "\u2028BTC-\x7fUSDT"
  kind := .limit
  side := .sell
  price := .ofParts 79228162514264337593543950335 28
  amount := .ofParts (-79228162514264337593543950335) 0
  filledAmount := .ofParts 0 28
  filledMoney := .ofParts (-10) 3
  status := .partiallyFilled
  createdAt := ⟨253402300799, 999999999⟩

theorem sample_order_survives :
    (0 ≤ Order.sampleHard.createdAt.date.year ∧ Order.sampleHard.createdAt.date.year ≤ 9999 ∧
      Order.sampleHard.createdAt.nanos < 1000000000) ∧
    (Json.ofText? Order.sampleHard.toJson.write).bind (Order.ofJson? .text default) =
      some Order.sampleHard ∧
    Command.ofText? default (Command.placeOrder Order.sampleHard).toJson.write =
      some (.placeOrder Order.sampleHard) ∧
    Command.ofBytes? default (Command.placeOrder Order.sampleHard).toJson.toText.toUTF8 =
      some (.placeOrder Order.sampleHard) :=
  ⟨by decide,
    orders_survive_text Order.sampleHard (by decide) (by decide) (by decide) .text default⟩

end SpotExchange
