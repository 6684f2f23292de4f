import TimedMachine.Token.Basic

/-!
# Trees without places, and their paths

`Token.withoutSpans` forgets where the parts of a tree stand in a text. Placing a tree in a
document and forgetting its places do not disturb each other, and in a placed tree the path of each
token is the path of the route to it (`Token.path_of_reaches_placed`).
-/

namespace TimedMachine

/-- A site that knows its path only. -/
def Site.withoutSpan (s : Site) : Site := { s with span := none }

/-- A key that does not know its place. -/
def Key.withoutSpan (k : Key) : Key := { k with span := none }

namespace Token

mutual

/-- A tree that does not know its places in a text. -/
def withoutSpans : Token → Token
  | .null s => .null s.withoutSpan
  | .bool s b => .bool s.withoutSpan b
  | .number s x => .number s.withoutSpan x
  | .string s v => .string s.withoutSpan v
  | .array s items => .array s.withoutSpan (itemsWithoutSpans items)
  | .object s members => .object s.withoutSpan (membersWithoutSpans members)

/-- Items that do not know their places. -/
def itemsWithoutSpans : List Token → List Token
  | [] => []
  | t :: ts => t.withoutSpans :: itemsWithoutSpans ts

/-- Members that do not know their places. -/
def membersWithoutSpans : Members → Members
  | [] => []
  | (k, t) :: ms => (k.withoutSpan, t.withoutSpans) :: membersWithoutSpans ms

end

@[simp] theorem itemsWithoutSpans_eq_map (ts : List Token) :
    itemsWithoutSpans ts = ts.map withoutSpans := by
  induction ts with
  | nil => rfl
  | cons t ts ih => rw [itemsWithoutSpans, ih, List.map_cons]

@[simp] theorem membersWithoutSpans_eq_map (ms : Members) :
    membersWithoutSpans ms = ms.map fun m => (m.1.withoutSpan, m.2.withoutSpans) := by
  induction ms with
  | nil => rfl
  | cons m ms ih => rw [membersWithoutSpans, ih, List.map_cons]

@[simp] theorem bareItems_eq_map (vs : List Json) : bareItems vs = vs.map bareOfJson := by
  induction vs with
  | nil => rfl
  | cons v vs ih => rw [bareItems, ih, List.map_cons]

@[simp] theorem bareMembers_eq_map (ms : List (String × Json)) :
    bareMembers ms = ms.map fun m => ({ name := m.1 }, bareOfJson m.2) := by
  induction ms with
  | nil => rfl
  | cons m ms ih => rw [bareMembers, ih, List.map_cons]

/-! ## Placing -/

mutual

/-- Places in the text do not matter to paths. -/
theorem withoutSpans_placed (path : String) :
    ∀ t : Token, (t.placed path).withoutSpans = t.withoutSpans.placed path
  | .null _ | .bool _ _ | .number _ _ | .string _ _ => rfl
  | .array _ items => by
    simp only [placed, withoutSpans, itemsWithoutSpans_placed path 0 items]
    rfl
  | .object _ members => by
    simp only [placed, withoutSpans, membersWithoutSpans_placed path members]
    rfl

/-- Places in the text do not matter to the paths of items. -/
theorem itemsWithoutSpans_placed (path : String) : ∀ (i : Nat) (ts : List Token),
    itemsWithoutSpans (placedItems path i ts) = placedItems path i (itemsWithoutSpans ts)
  | _, [] => rfl
  | i, t :: ts => by
    rw [placedItems, itemsWithoutSpans, withoutSpans_placed _ t, itemsWithoutSpans_placed path _ ts]
    rfl

/-- Places in the text do not matter to the paths of members. -/
theorem membersWithoutSpans_placed (path : String) : ∀ ms : Members,
    membersWithoutSpans (placedMembers path ms) = placedMembers path (membersWithoutSpans ms)
  | [] => rfl
  | (k, t) :: ms => by
    rw [placedMembers, membersWithoutSpans, withoutSpans_placed _ t,
      membersWithoutSpans_placed path ms]
    rfl

end

/-! ## Paths -/

/-- The root of a placed tree has the path that it was placed at. -/
@[simp] theorem path_placed (path : String) (t : Token) : (t.placed path).path = path := by
  cases t <;> rfl

/-- A route leads from a token down to another. Where an object repeats a key, it leads to each of
the members with that key. -/
inductive Reaches : Token → List Step → Token → Prop
  | here {t : Token} : Reaches t [] t
  | item {site : Site} {items : List Token} {i : Nat} {t u : Token} {route : List Step} :
    items[i]? = some t → Reaches t route u → Reaches (.array site items) (.index i :: route) u
  | member {site : Site} {members : Members} {k : Key} {t u : Token} {route : List Step} :
    (k, t) ∈ members → Reaches t route u → Reaches (.object site members) (.key k.name :: route) u

/-- What is found by following a route is reached by it. -/
theorem reaches_of_follow? {t u : Token} {route : List Step} (h : t.follow? route = some u) :
    t.Reaches route u := by
  induction route generalizing t with
  | nil =>
    cases h
    exact .here
  | cons s route ih =>
    obtain ⟨v, hv, hu⟩ := Option.bind_eq_some_iff.1 h
    cases s with
    | index i =>
      obtain ⟨items, hitems, hv⟩ := Option.bind_eq_some_iff.1 hv
      cases t with
      | array site items' =>
        cases hitems
        exact .item hv (ih hu)
      | null | bool | number | string | object => cases hitems
    | key name =>
      obtain ⟨members, hmembers, hv⟩ := Option.bind_eq_some_iff.1 hv
      obtain ⟨⟨k, v⟩, hfind, rfl⟩ := Option.map_eq_some_iff.1 hv
      have hname : k.name = name := by simpa using List.find?_some hfind
      subst hname
      cases t with
      | object site members' =>
        cases hmembers
        exact .member (List.mem_of_find?_eq_some hfind) (ih hu)
      | null | bool | number | string | array => cases hmembers

/-- The items of a placed array. -/
theorem getElem?_placedItems (path : String) (ts : List Token) (i j : Nat) :
    (placedItems path i ts)[j]? = ts[j]?.map (placed (Path.index path (i + j))) := by
  induction ts generalizing i j with
  | nil => rfl
  | cons t ts ih =>
    cases j with
    | zero => rfl
    | succ j =>
      rw [← Nat.add_assoc, Nat.add_right_comm]
      exact ih (i + 1) j

/-- The members of a placed object. -/
theorem exists_of_mem_placedMembers {path : String} {ms : Members} {k : Key} {u : Token}
    (h : (k, u) ∈ placedMembers path ms) : ∃ t : Token, u = t.placed (Path.child path k.name) := by
  induction ms with
  | nil => cases h
  | cons m ms ih =>
    rcases List.mem_cons.1 h with heq | h
    · cases heq
      exact ⟨m.2, rfl⟩
    · exact ih h

/-- In a placed tree the path of a token is the path of the route to it. -/
theorem path_of_reaches_placed {path : String} {t u : Token} {route : List Step}
    (h : (t.placed path).Reaches route u) : u.path = Path.along path route := by
  generalize hr : t.placed path = r at h
  induction h generalizing path t with
  | here =>
    subst hr
    exact path_placed path t
  | @item site _ i v _ _ hv _ ih =>
    cases t with
    | array site' items =>
      cases hr
      rw [getElem?_placedItems] at hv
      obtain ⟨w, -, hw⟩ := Option.map_eq_some_iff.1 hv
      rw [Nat.zero_add] at hw
      exact ih hw
    | null | bool | number | string | object => cases hr
  | member hv _ ih =>
    cases t with
    | object site' members =>
      cases hr
      obtain ⟨w, hw⟩ := exists_of_mem_placedMembers hv
      exact ih hw.symm
    | null | bool | number | string | array => cases hr

/-- In a placed tree the path of what is found by following a route is the path of that route. -/
theorem path_of_follow?_placed {path : String} {t u : Token} {route : List Step}
    (h : (t.placed path).follow? route = some u) : u.path = Path.along path route :=
  path_of_reaches_placed (reaches_of_follow? h)

end Token

end TimedMachine
