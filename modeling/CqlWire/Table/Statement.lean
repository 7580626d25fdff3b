import CqlWire.Table.Basic

namespace CqlWire

/-- A direction as statements write it. -/
def Direction.keyword : Direction → String
  | ascending => "ASC"
  | descending => "DESC"

namespace Column

/-- The name as statements write it. -/
def identifier (c : Column) : String := Quoted.identifier c.name

/-- Name, type and a mark of shared columns. -/
def declaration (c : Column) : String :=
  c.identifier ++ " " ++ c.type.name ++ if c.role = .shared then " static" else ""

/-- The name and the direction of a clustering key. -/
def ordering? (c : Column) : Option String :=
  match c.role with
  | .clustering direction => some (c.identifier ++ " " ++ direction.keyword)
  | _ => none

end Column

namespace Table

/-- Texts between commas. -/
def listed (items : List String) : String := ", ".intercalate items

/-- Partition keys in brackets of their own, then the clustering keys. -/
def primaryKey (t : Table) : String :=
  let partition := "(" ++ listed (t.partitionKeys.map Column.identifier) ++ ")"
  "PRIMARY KEY(" ++ listed (partition :: t.clusteringKeys.map Column.identifier) ++ ")"

/-- The statement that creates the table. -/
def createStatement (t : Table) : String :=
  let orderings := t.columns.filterMap Column.ordering?
  let ordered :=
    if orderings.isEmpty then ""
    else " WITH CLUSTERING ORDER BY (" ++ listed orderings ++ ")"
  "CREATE TABLE " ++ t.qualifiedName ++ " (" ++
    listed (t.columns.map Column.declaration ++ [t.primaryKey]) ++ ")" ++ ordered ++ ";"

/-- The statements that create the types of the columns, in an order that works. -/
def createTypeStatements (t : Table) : List String :=
  t.udts.map Udt.createStatement

/-- The statement that inserts a row. -/
def insertStatement (t : Table) : String :=
  let names := t.insertFields?.getD (t.columns.map Column.name)
  "INSERT INTO " ++ t.qualifiedName ++ " (" ++ listed (names.map Quoted.identifier) ++
    ") VALUES (" ++ listed (names.map fun _ => "?") ++ ");"

/-- The statement that deletes rows. -/
def deleteStatement (t : Table) : String :=
  let conditions :=
    match t.deleteConditions? with
    | some conditions => conditions.map fun c => c ++ " ?"
    | none => (t.columns.filter Column.isKey).map fun c => c.identifier ++ " = ?"
  "DELETE FROM " ++ t.qualifiedName ++ " WHERE " ++ " AND ".intercalate conditions ++ ";"

end Table

end CqlWire
