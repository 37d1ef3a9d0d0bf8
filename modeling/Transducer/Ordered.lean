/-!
Sets and tables kept as lists in increasing key order.
-/

namespace Transducer.Ordered

variable {κ : Type} {ν : Type} [Ord κ]

/-- Adds an element unless it is there already. -/
def insert (key : κ) : List κ → List κ
  | [] => [key]
  | k :: rest =>
    match compare key k with
    | .lt => key :: k :: rest
    | .eq => k :: rest
    | .gt => k :: insert key rest

def ofList (keys : List κ) : List κ := keys.foldl (fun set key => insert key set) []

/-- Changes the entry of a key, which is made if it is missing. -/
def alter (key : κ) (change : Option ν → ν) : List (κ × ν) → List (κ × ν)
  | [] => [(key, change none)]
  | (k, v) :: rest =>
    match compare key k with
    | .lt => (key, change none) :: (k, v) :: rest
    | .eq => (k, change (some v)) :: rest
    | .gt => (k, v) :: alter key change rest

/-- Sets the entry of a key. -/
def put (key : κ) (value : ν) (table : List (κ × ν)) : List (κ × ν) :=
  alter key (fun _ => value) table

/-- Gathers values under their keys, in the order given. -/
def group {α : Type} (key : α → κ) (items : List α) : List (κ × List α) :=
  items.foldl (fun table a => alter (key a) (fun found => found.getD [] ++ [a]) table) []

end Transducer.Ordered
