/-!
# Refusals

Why an operation is refused, as a cause with its circumstances.  `StoreRefusal` holds the causes
that the document store knows, `Refusal` those of schemas and datasets, which include the former.
Every cause has a fixed code and a text.
-/
namespace SchemaKeeper

/-- Why the store refuses an operation. -/
inductive StoreRefusal where
  | collectionNotFound (name : String)
  | collectionExists (name : String)
  | documentNotFound (collection id : String)
  | duplicateKey (collection index : String)
  | failedValidation (collection details : String)
  | invalidDocument (reason : String)
  | writeConflict (reason : String)
  | transactionClosed
  | device (reason : String)
  | unreadable (reason : String)
  | internal (reason : String)
  deriving DecidableEq

namespace StoreRefusal

def code : StoreRefusal → String
  | .collectionNotFound _ => "AERO_STORE_COLLECTION_NOT_FOUND"
  | .collectionExists _ => "AERO_STORE_COLLECTION_EXISTS"
  | .documentNotFound _ _ => "AERO_STORE_DOCUMENT_NOT_FOUND"
  | .duplicateKey _ _ => "AERO_STORE_DUPLICATE_KEY"
  | .failedValidation _ _ => "AERO_STORE_VALIDATION_FAILED"
  | .invalidDocument _ => "AERO_STORE_INVALID_DOCUMENT"
  | .writeConflict _ => "AERO_STORE_WRITE_CONFLICT"
  | .transactionClosed => "AERO_STORE_TRANSACTION_CLOSED"
  | .device _ => "AERO_STORE_IO_ERROR"
  | .unreadable _ => "AERO_STORE_SERIALIZATION_ERROR"
  | .internal _ => "AERO_STORE_INTERNAL_ERROR"

def text : StoreRefusal → String
  | .collectionNotFound name => "Collection not found: " ++ name
  | .collectionExists name => "Collection already exists: " ++ name
  | .documentNotFound collection id => "Document not found: " ++ collection ++ "/" ++ id
  | .duplicateKey collection index =>
    "Duplicate key in " ++ collection ++ ": index '" ++ index ++ "'"
  | .failedValidation collection details =>
    "Document failed validation in " ++ collection ++ ": " ++ details
  | .invalidDocument reason => "Invalid document: " ++ reason
  | .writeConflict reason => "Write conflict on commit: " ++ reason
  | .transactionClosed => "Transaction already closed"
  | .device reason => "I/O error: " ++ reason
  | .unreadable reason => "Serialization error: " ++ reason
  | .internal reason => "Internal error: " ++ reason

/-- The same call may succeed when it is made again. -/
def isTransient : StoreRefusal → Bool
  | .writeConflict _ => true
  | _ => false

end StoreRefusal

/-- Why an operation on a schema, a dataset or a record is refused. -/
inductive Refusal where
  | alreadyExists (name : String)
  | notAttached
  | datasetNotFound (key : String)
  | invalidKey (reason : String)
  | missingType (path : String)
  | unresolvable (path reason : String)
  | nullValue (path : String)
  | mismatch (path expected actual : String)
  | unknownField (path : String)
  | outOfBounds (path : String) (index length : Nat)
  | unsupportedFilter (reason : String)
  | unsupportedField (reason : String)
  | store (cause : StoreRefusal)
  deriving DecidableEq

namespace Refusal

def code : Refusal → String
  | .alreadyExists _ => "AERO_SCHEMA_ALREADY_EXISTS"
  | .notAttached => "AERO_SCHEMA_NOT_ATTACHED"
  | .datasetNotFound _ => "AERO_SCHEMA_DATASET_NOT_FOUND"
  | .invalidKey _ => "AERO_SCHEMA_INVALID_KEY"
  | .missingType _ => "AERO_SCHEMA_MISSING_FIELD_TYPE"
  | .unresolvable _ _ => "AERO_SCHEMA_UNRESOLVABLE_DESCRIPTOR"
  | .nullValue _ => "AERO_SCHEMA_NULL_VALUE"
  | .mismatch _ _ _ => "AERO_SCHEMA_TYPE_MISMATCH"
  | .unknownField _ => "AERO_SCHEMA_UNKNOWN_FIELD"
  | .outOfBounds _ _ _ => "AERO_SCHEMA_INDEX_OUT_OF_BOUNDS"
  | .unsupportedFilter _ => "AERO_SCHEMA_UNSUPPORTED_FILTER"
  | .unsupportedField _ => "AERO_SCHEMA_UNSUPPORTED_FIELD"
  | .store cause => cause.code

def text : Refusal → String
  | .alreadyExists name =>
    "Dataset '" ++ name ++ "' already exists; load it instead of creating it"
  | .notAttached => "Reference has no dataset"
  | .datasetNotFound key => "Dataset '" ++ key ++ "' not found"
  | .invalidKey reason => "Invalid key: " ++ reason
  | .missingType path => "Field '" ++ path ++ "' has no type"
  | .unresolvable path reason => "Unresolvable descriptor at '" ++ path ++ "': " ++ reason
  | .nullValue path => "Null value at '" ++ path ++ "'"
  | .mismatch path expected actual =>
    "Type mismatch at '" ++ path ++ "': expected " ++ expected ++ ", got " ++ actual
  | .unknownField path => "Unknown field '" ++ path ++ "'"
  | .outOfBounds path index length =>
    "Index " ++ toString index ++ " out of bounds at '" ++ path ++ "' (length "
      ++ toString length ++ ")"
  | .unsupportedFilter reason => "Unsupported filter: " ++ reason
  | .unsupportedField reason => "Unsupported field: " ++ reason
  | .store cause => cause.text

/-- The call does not fit the state of the dataset. -/
def isPrecondition : Refusal → Bool
  | .alreadyExists _ | .notAttached | .datasetNotFound _ | .invalidKey _ => true
  | _ => false

/-- The schema or a value does not fit. -/
def isValidation : Refusal → Bool
  | .missingType _ | .unresolvable _ _ | .nullValue _ | .mismatch _ _ _ | .unknownField _
  | .outOfBounds _ _ _ | .unsupportedFilter _ | .unsupportedField _ => true
  | _ => false

/-- The same call may succeed when it is made again. -/
def isTransient : Refusal → Bool
  | .store cause => cause.isTransient
  | _ => false

end Refusal
end SchemaKeeper
