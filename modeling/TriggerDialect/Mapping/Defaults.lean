import TriggerDialect.Mapping.Basic

/-!
# The mapping from Oracle to PostgreSQL

The tables that hold unless a mapping file says otherwise.
-/

namespace TriggerDialect.Mapping

/-- Types. -/
def oracleTypes : List (String × String) :=
  [("NUMBER", "numeric(\x7b*\x7d)"),
    ("NUMERIC", "numeric(\x7b*\x7d)"),
    ("DECIMAL", "numeric(\x7b*\x7d)"),
    ("INTEGER", "integer"),
    ("INT", "integer"),
    ("SMALLINT", "smallint"),
    ("PLS_INTEGER", "integer"),
    ("BINARY_INTEGER", "integer"),
    ("SIMPLE_INTEGER", "integer"),
    ("NATURAL", "integer"),
    ("POSITIVE", "integer"),
    ("FLOAT", "double precision"),
    ("BINARY_FLOAT", "real"),
    ("BINARY_DOUBLE", "double precision"),
    ("VARCHAR2", "varchar(\x7b0\x7d)"),
    ("VARCHAR", "varchar(\x7b0\x7d)"),
    ("NVARCHAR2", "varchar(\x7b0\x7d)"),
    ("CHAR", "char(\x7b0\x7d)"),
    ("NCHAR", "char(\x7b0\x7d)"),
    ("CLOB", "text"),
    ("NCLOB", "text"),
    ("LONG", "text"),
    ("BLOB", "bytea"),
    ("RAW", "bytea"),
    ("LONG RAW", "bytea"),
    ("DATE", "timestamp(0)"),
    ("TIMESTAMP", "timestamp(\x7b0\x7d)"),
    ("TIMESTAMP WITH TIME ZONE", "timestamptz(\x7b0\x7d)"),
    ("TIMESTAMP WITH LOCAL TIME ZONE", "timestamptz(\x7b0\x7d)"),
    ("BOOLEAN", "boolean"),
    ("XMLTYPE", "xml")]

/-- Functions. -/
def oracleFunctions : List (String × String) :=
  [("NVL", "COALESCE(\x7b0\x7d, \x7b1\x7d)"),
    ("NVL2", "CASE WHEN \x7b0\x7d IS NOT NULL THEN \x7b1\x7d ELSE \x7b2\x7d END"),
    ("SYSDATE", "LOCALTIMESTAMP(0)"),
    ("SYSTIMESTAMP", "CURRENT_TIMESTAMP"),
    ("USER", "CURRENT_USER"),
    ("SQLCODE", "SQLSTATE"),
    ("SYS_GUID", "gen_random_uuid()"),
    ("INSTR", "strpos(\x7b0\x7d, \x7b1\x7d)"),
    ("LENGTHB", "octet_length(\x7b0\x7d)"),
    ("ADD_MONTHS", "(\x7b0\x7d + (\x7b1\x7d) * INTERVAL '1 month')"),
    ("LAST_DAY", "(date_trunc('month', \x7b0\x7d) + INTERVAL '1 month - 1 day')"),
    ("DBMS_OUTPUT.PUT_LINE", "RAISE NOTICE '%', \x7b0\x7d"),
    ("RAISE_APPLICATION_ERROR",
      "RAISE EXCEPTION '%', \x7b1\x7d USING ERRCODE = 'P0001', DETAIL = 'ORA' || \x7b0\x7d")]

/-- Exceptions. -/
def oracleExceptions : List (String × String) :=
  [("NO_DATA_FOUND", "no_data_found"),
    ("TOO_MANY_ROWS", "too_many_rows"),
    ("ZERO_DIVIDE", "division_by_zero"),
    ("DUP_VAL_ON_INDEX", "unique_violation"),
    ("VALUE_ERROR", "data_exception"),
    ("INVALID_NUMBER", "invalid_text_representation"),
    ("CASE_NOT_FOUND", "case_not_found"),
    ("CURSOR_ALREADY_OPEN", "duplicate_cursor"),
    ("INVALID_CURSOR", "invalid_cursor_state"),
    ("ROWTYPE_MISMATCH", "datatype_mismatch"),
    ("TIMEOUT_ON_RESOURCE", "lock_not_available"),
    ("LOGIN_DENIED", "invalid_authorization_specification"),
    ("STORAGE_ERROR", "out_of_memory"),
    ("PROGRAM_ERROR", "internal_error")]

/-- Adds types, functions and exceptions, each list in order. -/
def extend (m : Mapping) (types functions exceptions : List (String × String)) : Mapping :=
  let m := types.foldl (fun m entry => m.insertType entry.1 entry.2) m
  let m := functions.foldl (fun m entry => m.insertFunction entry.1 entry.2) m
  exceptions.foldl (fun m entry => m.insertException entry.1 entry.2) m

/-- The mapping from Oracle to PostgreSQL. -/
def oracle : Mapping := empty.extend oracleTypes oracleFunctions oracleExceptions

end TriggerDialect.Mapping
